import Dataflow.RedBlack.Basic

/-!
# Shapes of red-black trees

The tree that an arena stands for, as an inductive type. A node keeps its slot, so that the arena
can be told from the shape. A place in a shape is a path up to the root, and a shape together with
a path is a larger shape.

* `Shape`, `Shape.join`, `Shape.toList`: shapes, seen from either side, and their entries in order.
* `Shape.Balanced`: no red pair, and one number of black nodes on all ways down.
* `Crumb`, `Path`, `Path.fill`: places in a shape.
* `Path.Accepts`: what may be put in a place so that the whole is balanced.
-/

namespace Dataflow.RedBlack

/-! ## Shapes -/

/-- A binary tree whose nodes have slots. -/
inductive Shape (K V : Type)
  | leaf
  | node (color : Color) (left : Shape K V) (slot : Nat) (entry : K × V) (right : Shape K V)

namespace Shape

variable {K V : Type}

def root : Shape K V → Link
  | leaf => none
  | node _ _ i _ _ => some i

def color : Shape K V → Color
  | leaf => .black
  | node c _ _ _ _ => c

/-- Give the top a color, if there is a node. -/
def paint (c : Color) : Shape K V → Shape K V
  | leaf => leaf
  | node _ l i e r => node c l i e r

def toList : Shape K V → List (K × V)
  | leaf => []
  | node _ l _ e r => l.toList ++ e :: r.toList

def size : Shape K V → Nat
  | leaf => 0
  | node _ l _ _ r => l.size + r.size + 1

/-- The number of nodes on a longest way down. -/
def height : Shape K V → Nat
  | leaf => 0
  | node _ l _ _ r => 1 + max l.height r.height

/-- A node, with the child on a side and the child on the other side. -/
def join (side : Side) (c : Color) (i : Nat) (e : K × V) (near far : Shape K V) : Shape K V :=
  match side with
  | .left => node c near i e far
  | .right => node c far i e near

section Join

variable (side : Side) (c c' : Color) (i : Nat) (e : K × V) (near far : Shape K V)

@[simp] theorem root_join : (join side c i e near far).root = some i := by cases side <;> rfl

@[simp] theorem color_join : (join side c i e near far).color = c := by cases side <;> rfl

@[simp] theorem paint_join : (join side c i e near far).paint c' = join side c' i e near far := by
  cases side <;> rfl

@[simp] theorem size_join : (join side c i e near far).size = near.size + far.size + 1 := by
  cases side with
  | left => rfl
  | right => exact congrArg (· + 1) (Nat.add_comm _ _)

theorem height_join :
    (join side c i e near far).height = 1 + max near.height far.height := by
  cases side with
  | left => rfl
  | right => exact congrArg (1 + ·) (Nat.max_comm _ _)

theorem join_other : join side.other c i e near far = join side c i e far near := by
  cases side <;> rfl

@[simp] theorem join_left : join .left c i e near far = node c near i e far := rfl

@[simp] theorem join_right : join .right c i e near far = node c far i e near := rfl

end Join

@[simp] theorem root_node (c : Color) (l : Shape K V) (i : Nat) (e : K × V) (r : Shape K V) :
    (node c l i e r).root = some i := rfl

@[simp] theorem root_leaf : (leaf : Shape K V).root = none := rfl

@[simp] theorem color_leaf : (leaf : Shape K V).color = .black := rfl

@[simp] theorem toList_leaf : (leaf : Shape K V).toList = [] := rfl

@[simp] theorem root_paint (c : Color) (s : Shape K V) : (s.paint c).root = s.root := by
  cases s <;> rfl

@[simp] theorem color_paint_black (s : Shape K V) : (s.paint .black).color = .black := by
  cases s <;> rfl

@[simp] theorem toList_paint (c : Color) (s : Shape K V) : (s.paint c).toList = s.toList := by
  cases s <;> rfl

theorem eq_leaf {s : Shape K V} (h : s.root = none) : s = leaf := by
  cases s with
  | leaf => rfl
  | node _ _ _ _ _ => cases h

theorem paint_color (s : Shape K V) : s.paint s.color = s := by
  cases s <;> rfl

theorem paint_black {s : Shape K V} (h : s.color = .black) : s.paint .black = s := by
  rw [← h, paint_color]

theorem length_toList (s : Shape K V) : s.toList.length = s.size := by
  induction s with
  | leaf => rfl
  | node c l i e r ihl ihr =>
    rw [toList, List.length_append, List.length_cons, ihl, ihr]
    rfl

/-- Any shape with a node can be seen from either side. -/
theorem exists_join {s : Shape K V} {i : Nat} (h : s.root = some i) (side : Side) :
    ∃ e near far, s = join side s.color i e near far := by
  cases s with
  | leaf => cases h
  | node c l j e r =>
    cases h
    cases side with
    | left => exact ⟨e, l, r, rfl⟩
    | right => exact ⟨e, r, l, rfl⟩

/-- A red top is a node. -/
theorem exists_red {s : Shape K V} (h : s.color = .red) (side : Side) :
    ∃ i e near far, s = join side .red i e near far := by
  cases s with
  | leaf => cases h
  | node c l i e r =>
    cases h
    cases side with
    | left => exact ⟨i, e, l, r, rfl⟩
    | right => exact ⟨i, e, r, l, rfl⟩

/-- The order sees a child from either side. -/
theorem toList_join_congr (side : Side) (c c' : Color) (i : Nat) (e : K × V)
    {near near' far far' : Shape K V} (hnear : near.toList = near'.toList)
    (hfar : far.toList = far'.toList) :
    (join side c i e near far).toList = (join side c' i e near' far').toList := by
  cases side <;> simp [toList, hnear, hfar]

/-- A rotation keeps the order. -/
theorem toList_rotate (side : Side) (cx cy cx' cy' : Color) (x y : Nat) (ex ey : K × V)
    (a b c : Shape K V) :
    (join side cy' y ey (join side cx' x ex a b) c).toList =
      (join side cx x ex a (join side cy y ey b c)).toList := by
  cases side <;> simp [toList]

end Shape

/-! ## Balance -/

namespace Shape

variable {K V : Type} {side : Side} {i : Nat} {e : K × V} {near far s : Shape K V} {n : Nat}

/-- No red node has a red child, and every way down meets `n` black nodes, the missing children
among them. -/
inductive Balanced : Nat → Shape K V → Prop
  | leaf : Balanced 1 leaf
  | red {n : Nat} {l r : Shape K V} {i : Nat} {e : K × V} (hl : l.color = .black)
      (hr : r.color = .black) (ihl : Balanced n l) (ihr : Balanced n r) :
      Balanced n (node .red l i e r)
  | black {n : Nat} {l r : Shape K V} {i : Nat} {e : K × V} (ihl : Balanced n l)
      (ihr : Balanced n r) : Balanced (n + 1) (node .black l i e r)

theorem Balanced.pos (h : Balanced n s) : 0 < n := by
  induction h with
  | leaf => exact Nat.one_pos
  | red _ _ _ _ ih _ => exact ih
  | black => exact Nat.succ_pos _

theorem balanced_join_red : Balanced n (join side .red i e near far) ↔
    near.color = .black ∧ far.color = .black ∧ Balanced n near ∧ Balanced n far := by
  cases side with
  | left =>
    constructor
    · intro h
      cases h with
      | red hl hr ihl ihr => exact ⟨hl, hr, ihl, ihr⟩
    · rintro ⟨hl, hr, ihl, ihr⟩
      exact .red hl hr ihl ihr
  | right =>
    constructor
    · intro h
      cases h with
      | red hl hr ihl ihr => exact ⟨hr, hl, ihr, ihl⟩
    · rintro ⟨hl, hr, ihl, ihr⟩
      exact .red hr hl ihr ihl

theorem balanced_join_black : Balanced (n + 1) (join side .black i e near far) ↔
    Balanced n near ∧ Balanced n far := by
  cases side with
  | left =>
    constructor
    · intro h
      cases h with
      | black ihl ihr => exact ⟨ihl, ihr⟩
    · rintro ⟨ihl, ihr⟩
      exact .black ihl ihr
  | right =>
    constructor
    · intro h
      cases h with
      | black ihl ihr => exact ⟨ihr, ihl⟩
    · rintro ⟨ihl, ihr⟩
      exact .black ihr ihl

theorem Balanced.exists_black (h : Balanced n (join side .black i e near far)) :
    ∃ m, n = m + 1 ∧ Balanced m near ∧ Balanced m far := by
  obtain ⟨m, rfl⟩ : ∃ m, n = m + 1 := ⟨n - 1, by have := h.pos; omega⟩
  obtain ⟨hnear, hfar⟩ := balanced_join_black.mp h
  exact ⟨m, rfl, hnear, hfar⟩

/-- A red top that becomes black adds a black node to every way down. -/
theorem Balanced.paint_black (h : Balanced n s) (hs : s.color = .red) :
    Balanced (n + 1) (s.paint .black) := by
  cases h with
  | leaf => cases hs
  | red _ _ ihl ihr => exact .black ihl ihr
  | black _ _ => cases hs

/-- A shape that is higher than a leaf has a node. -/
theorem Balanced.exists_root (h : Balanced (n + 1) s) (hn : 0 < n) : ∃ i, s.root = some i := by
  cases s with
  | leaf =>
    cases h
    exact absurd hn (Nat.lt_irrefl 0)
  | node c l i e r => exact ⟨i, rfl⟩

theorem Balanced.exists_black_join (h : Balanced (n + 1) s) (hn : 0 < n)
    (hcolor : s.color = .black) (side : Side) :
    ∃ i e near far, s = join side .black i e near far ∧ Balanced n near ∧ Balanced n far := by
  obtain ⟨i, hi⟩ := h.exists_root hn
  obtain ⟨e, near, far, hjoin⟩ := exists_join hi side
  rw [hcolor] at hjoin
  subst hjoin
  exact ⟨i, e, near, far, rfl, balanced_join_black.mp h⟩

/-- Balance depends on neither slots nor entries. -/
theorem Balanced.relabel {c : Color} {l r : Shape K V} (h : Balanced n (node c l i e r)) (i' : Nat)
    (e' : K × V) : Balanced n (node c l i' e' r) := by
  cases h with
  | red hl hr ihl ihr => exact .red hl hr ihl ihr
  | black ihl ihr => exact .black ihl ihr

end Shape

/-! ## Places -/

/-- A node on the way up from a place, with the subtree that lies on its other side. -/
structure Crumb (K V : Type) where
  /-- The side from which the way comes. -/
  side : Side
  color : Color
  slot : Nat
  entry : K × V
  sibling : Shape K V

/-- Put a shape in the place below a crumb. -/
def Crumb.plug {K V : Type} (d : Crumb K V) (s : Shape K V) : Shape K V :=
  .join d.side d.color d.slot d.entry s d.sibling

/-- The way up from a place to the root. -/
abbrev Path (K V : Type) := List (Crumb K V)

@[simp] theorem Crumb.root_plug {K V : Type} (d : Crumb K V) (s : Shape K V) :
    (d.plug s).root = some d.slot :=
  Shape.root_join _ _ _ _ _ _

namespace Path

variable {K V : Type}

def fill : Path K V → Shape K V → Shape K V
  | [], s => s
  | d :: path, s => fill path (d.plug s)

def link : Path K V → Link
  | [] => none
  | d :: _ => some d.slot

/-- The node above a place, and its side on which the place is. -/
def spot : Path K V → Option (Nat × Side)
  | [] => none
  | d :: _ => some (d.slot, d.side)

/-- The slot of the root, if `hole` is what hangs in the place. -/
def top : Path K V → (hole : Link) → Link
  | [], hole => hole
  | d :: path, _ => top path (some d.slot)

/-- The entries in order before a place. -/
def before : Path K V → List (K × V)
  | [] => []
  | d :: path =>
    match d.side with
    | .left => before path
    | .right => before path ++ (d.sibling.toList ++ [d.entry])

/-- The entries in order behind a place. -/
def after : Path K V → List (K × V)
  | [] => []
  | d :: path =>
    match d.side with
    | .left => d.entry :: (d.sibling.toList ++ after path)
    | .right => after path

@[simp] theorem link_nil : link ([] : Path K V) = none := rfl

@[simp] theorem link_cons (d : Crumb K V) (path : Path K V) : link (d :: path) = some d.slot := rfl

@[simp] theorem root_fill (path : Path K V) (s : Shape K V) :
    (path.fill s).root = path.top s.root := by
  induction path generalizing s with
  | nil => rfl
  | cons d path ih => rw [fill, ih, Crumb.plug, Shape.root_join, top]

theorem toList_fill (path : Path K V) (s : Shape K V) :
    (path.fill s).toList = path.before ++ (s.toList ++ path.after) := by
  induction path generalizing s with
  | nil => simp [fill, before, after]
  | cons d path ih =>
    obtain ⟨side, c, i, e, sibling⟩ := d
    rw [fill, ih, Crumb.plug]
    cases side <;> simp [before, after, Shape.toList]

theorem toList_fill_leaf (path : Path K V) :
    (path.fill .leaf).toList = path.before ++ path.after := by
  rw [toList_fill, Shape.toList, List.nil_append]

/-- The entries on both sides of a node. -/
theorem toList_fill_node (path : Path K V) (c : Color) (l r : Shape K V) (i : Nat) (e : K × V) :
    (path.fill (.node c l i e r)).toList =
      (path.before ++ l.toList) ++ e :: (r.toList ++ path.after) := by
  rw [toList_fill, Shape.toList]
  simp

/-- Shapes with the same entries may replace each other. -/
theorem toList_fill_congr (path : Path K V) {s s' : Shape K V} (h : s.toList = s'.toList) :
    (path.fill s).toList = (path.fill s').toList := by
  rw [toList_fill, toList_fill, h]

theorem fill_append (path path' : Path K V) (s : Shape K V) :
    fill (path ++ path') s = fill path' (fill path s) := by
  induction path generalizing s with
  | nil => rfl
  | cons d path ih => exact ih _

/-- A way up and a way down in the place make a way down of the whole. -/
theorem length_add_height_le (path : Path K V) (s : Shape K V) :
    path.length + s.height ≤ (path.fill s).height := by
  induction path generalizing s with
  | nil => exact Nat.le_of_eq (Nat.zero_add _)
  | cons d path ih =>
    have hplug := ih (d.plug s)
    rw [Crumb.plug, Shape.height_join] at hplug
    rw [fill, Crumb.plug, List.length_cons]
    omega

/-- A node has fewer nodes above it than the whole is high. -/
theorem length_lt_height (path : Path K V) {s : Shape K V} {i : Nat} (hs : s.root = some i) :
    path.length < (path.fill s).height := by
  have hle := path.length_add_height_le s
  cases s with
  | leaf => cases hs
  | node c l j e r =>
    rw [Shape.height] at hle
    omega

/-- If a shape with a top of color `c` and `n` black nodes on every way down hangs in the place,
then the whole is balanced and its root is black. -/
def Accepts : Path K V → (c : Color) → (n : Nat) → Prop
  | [], c, _ => c = .black
  | d :: path, c, n =>
    Shape.Balanced n d.sibling ∧
      match d.color with
      | .red => c = .black ∧ d.sibling.color = .black ∧ Accepts path .red n
      | .black => Accepts path .black (n + 1)

theorem Accepts.weaken {path : Path K V} {c : Color} {n : Nat} (h : path.Accepts c n) :
    path.Accepts .black n := by
  cases path with
  | nil => rfl
  | cons d path =>
    obtain ⟨side, color, i, e, sibling⟩ := d
    cases color with
    | red => exact ⟨h.1, rfl, h.2.2⟩
    | black => exact h

theorem Accepts.fill {path : Path K V} {s : Shape K V} {n : Nat} (h : path.Accepts s.color n)
    (hs : s.Balanced n) : ∃ m, (path.fill s).Balanced m ∧ (path.fill s).color = .black := by
  induction path generalizing s n with
  | nil => exact ⟨n, hs, h⟩
  | cons d path ih =>
    obtain ⟨side, color, i, e, sibling⟩ := d
    obtain ⟨hsibling, h⟩ := h
    cases color with
    | red =>
      obtain ⟨hc, hc', h⟩ := h
      exact ih (s := .join side .red i e s sibling) (by simpa using h)
        (Shape.balanced_join_red.mpr ⟨hc, hc', hs, hsibling⟩)
    | black =>
      exact ih (s := .join side .black i e s sibling) (by simpa using h)
        (Shape.balanced_join_black.mpr ⟨hs, hsibling⟩)

/-- The parts of a balanced whole. -/
theorem accepts_of_fill {path : Path K V} {s : Shape K V} {m : Nat}
    (h : (path.fill s).Balanced m) (hroot : (path.fill s).color = .black) :
    ∃ n, s.Balanced n ∧ path.Accepts s.color n := by
  induction path generalizing s with
  | nil => exact ⟨m, h, hroot⟩
  | cons d path ih =>
    obtain ⟨side, color, i, e, sibling⟩ := d
    obtain ⟨n, hplug, haccepts⟩ := ih h hroot
    simp only [Crumb.plug, Shape.color_join] at hplug haccepts
    cases color with
    | red =>
      obtain ⟨hc, hc', hs, hsibling⟩ := Shape.balanced_join_red.mp hplug
      exact ⟨n, hs, hsibling, hc, hc', haccepts⟩
    | black =>
      obtain ⟨n, rfl, hs, hsibling⟩ := hplug.exists_black
      exact ⟨n, hs, hsibling, haccepts⟩

theorem balanced_fill_relabel {path : Path K V} {c : Color} {l r : Shape K V} {i : Nat}
    {e : K × V} {m : Nat} (h : (path.fill (.node c l i e r)).Balanced m)
    (hroot : (path.fill (.node c l i e r)).color = .black) (i' : Nat) (e' : K × V) :
    ∃ m', (path.fill (.node c l i' e' r)).Balanced m' ∧
      (path.fill (.node c l i' e' r)).color = .black := by
  obtain ⟨n, hn, hpath⟩ := accepts_of_fill h hroot
  exact Accepts.fill (s := .node c l i' e' r) hpath (hn.relabel i' e')

/-- What may be put in a place depends on the way up through what may be put at its end. -/
theorem Accepts.append {path path' path'' : Path K V} {c : Color} {n : Nat}
    (htail : ∀ c n, path'.Accepts c n → path''.Accepts c n) (h : Accepts (path ++ path') c n) :
    Accepts (path ++ path'') c n := by
  induction path generalizing c n with
  | nil => exact htail c n h
  | cons d path ih =>
    obtain ⟨hsibling, h⟩ := h
    refine ⟨hsibling, ?_⟩
    cases hcolor : d.color with
    | red =>
      rw [hcolor] at h
      exact ⟨h.1, h.2.1, ih h.2.2⟩
    | black =>
      rw [hcolor] at h
      exact ih h

end Path

end Dataflow.RedBlack
