import Dataflow.Store.File
import Dataflow.Store.Memory

/-!
# A store in a file and one in memory agree

What is known about crashes is known about the store in memory, whose marks say what would be left.
It carries over to files because nobody can tell the two stores apart: a file store keeps its bytes
in two places, and the place where they are split is the mark of the last flush.

* `Store.Request`, `Store.serve`, `Store.serveAll`: what can be asked of a store, and the replies.
* `Store.Request.kept`: what a request makes of the bytes that a store stands for.
* `FileStore.Mirrors`: the relation between the two stores, with a lemma for each request.
* `FileStore.serveAll_agrees`: a file store that was just opened and a store in memory with the same
  bytes give the same replies, as long as no call for the file fails.
-/

namespace Dataflow

/-! ## Requests -/

namespace Store

/-- What can be asked of a store. -/
inductive Request
  | size
  | isEmpty
  | append (bytes : Bytes)
  | flush
  | sync
  | readAt (offset length : Nat)
  | truncate (length : Nat)
  deriving DecidableEq, Repr

/-- What a store replies. -/
inductive Reply
  | size (length : Nat)
  | isEmpty (empty : Bool)
  | start (result : Except (Failure IoError) Nat)
  | bytes (result : Except IoError Bytes)
  /-- The reply to a request that only changes the store. -/
  | done (result : Except IoError Unit)

/-- A change was not made. A range that cannot be read is no failure in this sense. -/
def Reply.isFault : Reply → Bool
  | start (.error _) | done (.error _) => true
  | _ => false

theorem Reply.eq_ok_of_not_isFault {result : Except IoError Unit}
    (h : ¬ (done result).isFault) : result = .ok () := by
  cases result with
  | error e => exact absurd rfl h
  | ok u => rfl

/-- The bytes for which a store stands after a request: the appended ones without those that were
cut off. -/
def Request.kept (bytes : Bytes) : Request → Bytes
  | append more => bytes ++ more
  | truncate length => bytes.take length
  | size | isEmpty | flush | sync | readAt _ _ => bytes

variable {σ : Type} [Store σ]

def serve (s : σ) : Request → Reply × σ
  | .size => (.size (Store.size s), s)
  | .isEmpty => (.isEmpty (isEmpty s), s)
  | .append bytes =>
    let (result, s) := append s bytes
    (.start result, s)
  | .flush =>
    let (result, s) := flush s
    (.done result, s)
  | .sync =>
    let (result, s) := sync s
    (.done result, s)
  | .readAt offset length =>
    let (result, s) := readAt s offset length
    (.bytes result, s)
  | .truncate length =>
    let (result, s) := truncate s length
    (.done result, s)

/-- Serve requests one after the other. -/
def serveAll (s : σ) : List Request → List Reply × σ
  | [] => ([], s)
  | request :: rest =>
    let (reply, s) := serve s request
    let (replies, s) := serveAll s rest
    (reply :: replies, s)

theorem serveAll_cons (s : σ) (request : Request) (rest : List Request) :
    serveAll s (request :: rest) =
      ((serve s request).1 :: (serveAll (serve s request).2 rest).1,
        (serveAll (serve s request).2 rest).2) := rfl

end Store

open Store

/-- A range of two byte strings, one after the other: the part of it that lies in the first, and
the rest in the second. -/
theorem Bytes.slice_append_split (a b : Bytes) (offset length : Nat) :
    Bytes.slice (a ++ b) offset length =
      a.slice offset (min (a.length - offset) length) ++
        b.slice (offset + min (a.length - offset) length - a.length)
          (length - min (a.length - offset) length) := by
  simp only [Bytes.slice, List.drop_append, List.take_append, List.length_drop]
  rcases Nat.le_total length (a.length - offset) with hle | hle
  · rw [Nat.min_eq_right hle, Nat.sub_self, Nat.sub_eq_zero_of_le hle, List.take_zero,
      List.take_zero]
  · have hwhole : (a.drop offset).length ≤ length := by
      rw [List.length_drop]
      exact hle
    have hstart : offset + (a.length - offset) - a.length = offset - a.length := by omega
    rw [Nat.min_eq_left hle, hstart, List.take_of_length_le hwhole, ← List.length_drop,
      List.take_length]

/-! ## What both stores stand for -/

namespace MemoryStore

theorem data_serve (m : MemoryStore) (request : Request) :
    (serve m request).2.data.toBytes = request.kept m.data.toBytes := by
  cases request with
  | append bytes => exact m.data.toBytes_append bytes
  | truncate length => exact m.data.toBytes_take length
  | flush =>
    change m.flush.2.data.toBytes = m.data.toBytes
    unfold flush
    split <;> rfl
  | sync =>
    change m.sync.2.data.toBytes = m.data.toBytes
    unfold sync flush
    repeat' split
    all_goals grind
  | size => rfl
  | isEmpty => rfl
  | readAt offset length => rfl

theorem data_serveAll (m : MemoryStore) (requests : List Request) :
    (serveAll m requests).2.data.toBytes = requests.foldl Request.kept m.data.toBytes := by
  induction requests generalizing m with
  | nil => rfl
  | cons request rest ih =>
    rw [List.foldl_cons, ← data_serve]
    exact ih _

end MemoryStore

namespace FileStore

theorem location_serve (s : FileStore) (request : Request) :
    (serve s request).2.location = s.location := by
  cases request with
  | flush | sync =>
    change s.flush.2.location = s.location
    unfold flush
    split
    · rfl
    · split <;> rfl
  | truncate size =>
    change (s.truncate size).location = s.location
    unfold truncate
    split <;> rfl
  | size | isEmpty | append | readAt => rfl

theorem location_serveAll (s : FileStore) (requests : List Request) :
    (serveAll s requests).2.location = s.location := by
  induction requests generalizing s with
  | nil => rfl
  | cons request rest ih => exact (ih _).trans (s.location_serve request)

/-! ## The relation -/

/-- A store in memory holds the bytes of a file and behind them those that wait for it. The mark of
its last flush is the length of the file, which the file store knows. -/
structure Mirrors (s : FileStore) (m : MemoryStore) : Prop where
  data : m.data.toBytes = s.disk.toBytes ++ s.pending.toBytes
  flushedLength_eq : s.flushedLength = s.disk.size
  flushed_eq : m.flushed = s.flushedLength
  failFlush : m.failFlush = false
  failSync : m.failSync = false

variable {s : FileStore} {m : MemoryStore}

theorem Mirrors.length_disk (h : s.Mirrors m) : s.disk.toBytes.length = s.flushedLength := by
  rw [SparseBytes.length_toBytes, h.flushedLength_eq]

theorem Mirrors.size_eq (h : s.Mirrors m) : m.data.size = s.size := by
  rw [← Image.length_toBytes, h.data, List.length_append, h.length_disk, Image.length_toBytes]
  rfl

/-- A crash of the process leaves in memory what the disk holds. -/
theorem Mirrors.crash (h : s.Mirrors m) : m.crash.data.toBytes = s.disk.toBytes := by
  change (m.data.take m.flushed).toBytes = _
  rw [Image.toBytes_take, h.data, h.flushed_eq, ← h.length_disk, List.take_left]

theorem mirrors_ofBytes (hpending : s.pending = {}) (hlength : s.flushedLength = s.disk.size) :
    s.Mirrors (.ofBytes s.disk.toBytes) where
  data := by
    rw [hpending]
    exact (List.append_nil _).symm
  flushedLength_eq := hlength
  flushed_eq := by
    rw [hlength, ← SparseBytes.length_toBytes, ← Image.toBytes_ofBytes s.disk.toBytes,
      Image.length_toBytes, Image.toBytes_ofBytes]
    rfl
  failFlush := rfl
  failSync := rfl

/-! ## The requests -/

theorem Mirrors.append (h : s.Mirrors m) (bytes : Bytes) :
    (s.append bytes).Mirrors (m.append bytes) :=
  { h with
    data := by
      change (m.data.append bytes).toBytes = s.disk.toBytes ++ (s.pending.append bytes).toBytes
      rw [Image.toBytes_append, Image.toBytes_append, h.data, List.append_assoc] }

/-- Bytes that wait go to the end of the file, so that it holds all bytes; the flush in memory moves
its mark there. -/
theorem Mirrors.flush (h : s.Mirrors m) (served : s.flush.1 = .ok ()) :
    m.flush.1 = .ok () ∧ s.flush.2.Mirrors m.flush.2 ∧
      s.flush.2.pending.toBytes = [] := by
  have hmemory : m.flush = (.ok (), { m with flushed := m.data.size }) := by
    rw [MemoryStore.flush, h.failFlush]
    rfl
  rw [hmemory]
  refine ⟨rfl, ?_⟩
  unfold FileStore.flush at served ⊢
  split
  case isTrue hempty =>
    have hsize : s.pending.size = 0 := by simpa [Image.isEmpty] using hempty
    refine ⟨{ h with flushed_eq := ?_ }, List.eq_nil_of_length_eq_zero ?_⟩
    · rw [h.size_eq, FileStore.size, hsize]
      rfl
    · rw [Image.length_toBytes, hsize]
  case isFalse hempty =>
    rw [if_neg hempty] at served
    split
    case h_1 e v hwrite => simp [hwrite] at served
    case h_2 v hwrite =>
      -- the file ends where the store thinks, so that nothing is overwritten
      have hdisk : v.content s.location =
          s.disk.overwrite s.flushedLength s.pending.toBytes := by
        simp only [Volume.writeAt] at hwrite
        split at hwrite
        · cases hwrite
          exact Volume.content_put _ _ _
        · split at hwrite <;> cases hwrite
      have hbytes : (v.content s.location).toBytes = s.disk.toBytes ++ s.pending.toBytes := by
        rw [hdisk, SparseBytes.toBytes_overwrite, SparseBytes.toBytes_resize, ← h.length_disk,
          List.take_length, Nat.sub_self, List.drop_of_length_le (Nat.le_add_right _ _)]
        simp
      refine ⟨⟨?_, ?_, h.size_eq, h.failFlush, h.failSync⟩, rfl⟩
      · change m.data.toBytes = (v.content s.location).toBytes ++ []
        rw [List.append_nil, hbytes, h.data]
      · change s.size = (v.content s.location).size
        rw [← SparseBytes.length_toBytes, hbytes, ← h.data, Image.length_toBytes, h.size_eq]

/-- A sync of the file store is a flush. In memory it moves another mark besides, which no reply
depends on. -/
theorem Mirrors.sync (h : s.Mirrors m) (served : s.flush.1 = .ok ()) :
    m.sync.1 = .ok () ∧ s.flush.2.Mirrors m.sync.2 := by
  have hmemory : m.sync = (.ok (), { m with flushed := m.data.size, synced := m.data.size }) := by
    simp [MemoryStore.sync, MemoryStore.flush, h.failFlush, h.failSync]
  have hflush := (h.flush served).2.1
  rw [MemoryStore.flush, if_neg (by simp [h.failFlush])] at hflush
  rw [hmemory]
  exact ⟨rfl, { hflush with }⟩

/-- Where a range lies on both sides of the end of the file, what is read from the two places are
its two parts. -/
theorem Mirrors.readAt (h : s.Mirrors m) (offset length : Nat) :
    s.readAt offset length = m.readAt offset length := by
  unfold FileStore.readAt MemoryStore.readAt
  rw [h.size_eq]
  by_cases hrange : offset + length ≤ s.size
  · have hfile : ¬ (0 < min (s.flushedLength - offset) length ∧
        s.disk.size < offset + min (s.flushedLength - offset) length) := by
      rw [← h.flushedLength_eq]
      omega
    rw [if_neg (by omega), if_pos hrange]
    dsimp only
    rw [if_neg hfile, Image.slice_eq, Image.slice_eq, SparseBytes.slice_eq, h.data,
      Bytes.slice_append_split, h.length_disk]
  · rw [if_pos (by omega), if_neg hrange]

/-- A cut behind the end of the file only shortens what waits; one before it empties that and
shortens the file. -/
theorem Mirrors.truncate (h : s.Mirrors m) (size : Nat) :
    (s.truncate size).Mirrors (m.truncate size) := by
  have hdata : (m.truncate size).data.toBytes =
      s.disk.toBytes.take size ++ s.pending.toBytes.take (size - s.flushedLength) := by
    change (m.data.take size).toBytes = _
    rw [Image.toBytes_take, h.data, List.take_append, h.length_disk]
  have hmark : (m.truncate size).flushed = min s.flushedLength size := by
    rw [← h.flushed_eq]
    rfl
  unfold FileStore.truncate
  split
  case isTrue hle =>
    refine ⟨?_, h.flushedLength_eq, hmark.trans (Nat.min_eq_left hle), h.failFlush, h.failSync⟩
    change _ = s.disk.toBytes ++ (s.pending.take (size - s.flushedLength)).toBytes
    rw [hdata, Image.toBytes_take, List.take_of_length_le (by rw [h.length_disk]; exact hle)]
  case isFalse hlt =>
    have hdisk : (({ s.setDisk (s.disk.resize size) with
        flushedLength := size, pending := {} } : FileStore).disk).toBytes =
          s.disk.toBytes.take size := by
      change ((s.volume.put s.location _).content s.location).toBytes = _
      rw [Volume.content_put, SparseBytes.toBytes_resize, h.length_disk,
        Nat.sub_eq_zero_of_le (by omega)]
      exact List.append_nil _
    have hle : size ≤ s.flushedLength := Nat.le_of_not_le hlt
    refine ⟨?_, ?_, hmark.trans (Nat.min_eq_right hle), h.failFlush, h.failSync⟩
    · rw [hdisk, hdata, Nat.sub_eq_zero_of_le hle, List.take_zero]
      rfl
    · rw [← SparseBytes.length_toBytes, hdisk, List.length_take, h.length_disk]
      exact (Nat.min_eq_left (by omega)).symm

/-- After a last flush that does not fail the disk holds all bytes. -/
theorem Mirrors.content_close (h : s.Mirrors m) (served : s.flush.1 = .ok ()) :
    (s.close.content s.location).toBytes = m.data.toBytes := by
  obtain ⟨-, hflushed, hwaiting⟩ := h.flush served
  have hlocation : s.flush.2.location = s.location := s.location_serve .flush
  have hdata : m.flush.2.data.toBytes = m.data.toBytes := m.data_serve .flush
  have hdisk := hflushed.data
  rw [hwaiting, List.append_nil, hdata] at hdisk
  rw [← hlocation]
  exact hdisk.symm

/-! ## All requests -/

/-- One request: the same reply, and the stores go on mirroring each other. -/
theorem Mirrors.serve (h : s.Mirrors m) (request : Request)
    (served : ¬ (serve s request).1.isFault) :
    (serve s request).1 = (serve m request).1 ∧
      (serve s request).2.Mirrors (serve m request).2 := by
  cases request with
  | size => exact ⟨congrArg Reply.size h.size_eq.symm, h⟩
  | isEmpty => exact ⟨congrArg (fun n => Reply.isEmpty (n == 0)) h.size_eq.symm, h⟩
  | append bytes =>
    exact ⟨congrArg (fun n => Reply.start (.ok n)) h.size_eq.symm, h.append bytes⟩
  | flush =>
    have hok := Reply.eq_ok_of_not_isFault served
    obtain ⟨hreply, hmirrors, -⟩ := h.flush hok
    exact ⟨congrArg Reply.done (hok.trans hreply.symm), hmirrors⟩
  | sync =>
    have hok := Reply.eq_ok_of_not_isFault served
    obtain ⟨hreply, hmirrors⟩ := h.sync hok
    exact ⟨congrArg Reply.done (hok.trans hreply.symm), hmirrors⟩
  | readAt offset length => exact ⟨congrArg Reply.bytes (h.readAt offset length), h⟩
  | truncate length => exact ⟨rfl, h.truncate length⟩

theorem Mirrors.serveAll (h : s.Mirrors m) (requests : List Request)
    (served : ∀ reply ∈ (serveAll s requests).1, ¬ reply.isFault) :
    (serveAll s requests).1 = (serveAll m requests).1 ∧
      (serveAll s requests).2.Mirrors (serveAll m requests).2 := by
  induction requests generalizing s m with
  | nil => exact ⟨rfl, h⟩
  | cons request rest ih =>
    rw [serveAll_cons, List.forall_mem_cons] at served
    obtain ⟨hreply, hmirrors⟩ := h.serve request served.1
    obtain ⟨hreplies, hlast⟩ := ih hmirrors served.2
    rw [serveAll_cons, serveAll_cons, hreply, hreplies]
    exact ⟨rfl, hlast⟩

/-- A store that was just opened has nothing waiting and knows the length of its file. -/
theorem open_fresh {v : Volume} {path : String} (h : FileStore.open v path = .ok s) :
    s.pending = {} ∧ s.flushedLength = s.disk.size := by
  unfold FileStore.open at h
  split at h
  · cases h
  · split at h
    · cases h
    · cases h
      exact ⟨rfl, rfl⟩

/-- A store that has just been opened on a file, whatever the file holds, and a store in memory with
the same bytes cannot be told apart. As long as no call for the file fails they give the same
replies to all requests, the disk holds what a crash would leave in memory, and the file is as
long as the store thinks. Closing leaves all bytes that were appended and not cut off, if its last
flush does not fail. -/
theorem serveAll_agrees {v : Volume} {path : String} (requests : List Request)
    (opened : FileStore.open v path = .ok s)
    (served : ∀ reply ∈ (Store.serveAll s requests).1, ¬ reply.isFault) :
    let (fileReplies, file) := Store.serveAll s requests
    let (memoryReplies, memory) := Store.serveAll (MemoryStore.ofBytes s.disk.toBytes) requests
    fileReplies = memoryReplies ∧
      file.disk.toBytes = memory.crash.data.toBytes ∧
      file.flushedLength = file.disk.size ∧
      (file.flush.1 = .ok () →
        (file.close.content s.location).toBytes =
          requests.foldl Request.kept s.disk.toBytes) := by
  obtain ⟨hpending, hlength⟩ := open_fresh opened
  obtain ⟨hreplies, hmirrors⟩ := (mirrors_ofBytes hpending hlength).serveAll requests served
  refine ⟨hreplies, hmirrors.crash.symm, hmirrors.flushedLength_eq, fun hflush => ?_⟩
  rw [← location_serveAll s requests, hmirrors.content_close hflush, MemoryStore.data_serveAll]
  rfl

/-- The file holds three bytes. Two more are appended and read across the end of the file; a read of
no bytes succeeds at the end and fails behind it. Then most of them are cut off, also from the
file. -/
theorem serveAll_agrees_log :
    let s : FileStore :=
      { volume := ⟨[("log", .file (.ofBytes [1, 2, 3]))]⟩
        path := "log"
        location := ⟨[], "log"⟩
        flushedLength := 3 }
    let requests : List Request :=
      [.append [4, 5], .readAt 2 2, .readAt 5 0, .readAt 6 0, .flush, .truncate 2, .append [6]]
    FileStore.open s.volume "log" = .ok s ∧
      (∀ reply ∈ (Store.serveAll s requests).1, ¬ reply.isFault) ∧
      (Store.serveAll s requests).1 =
        (Store.serveAll (MemoryStore.ofBytes s.disk.toBytes) requests).1 ∧
      ((Store.serveAll s requests).2.close.content s.location).toBytes = [1, 2, 6] := by
  intro s requests
  have opened : FileStore.open s.volume "log" = .ok s := rfl
  have served : ∀ reply ∈ (Store.serveAll s requests).1, ¬ reply.isFault := by decide +kernel
  obtain ⟨hreplies, -, -, hclosed⟩ := serveAll_agrees requests opened served
  exact ⟨opened, served, hreplies, hclosed rfl⟩

end FileStore

end Dataflow
