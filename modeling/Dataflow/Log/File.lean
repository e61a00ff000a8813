import Dataflow.Log.Writing
import Dataflow.Store.File

/-!
# Logs in files

* `Log.openFile`: opens the log in the file that its settings name.
* `Log.drop`: gives up a log without closing it; the file still gets the waiting bytes.
-/

namespace Dataflow.Log

/-- Open the log in the file that its settings name. A refusal hands the volume back. -/
def openFile (settings : LogSettings) (v : Volume) : Except (Error × Volume) (Log FileStore) :=
  match settings.validate with
  | .error e => .error (e, v)
  | .ok () =>
    match FileStore.open v settings.path with
    | .error (e, v) => .error (.io (.openFile settings.path) e, v)
    | .ok s =>
      match Log.open settings s with
      | .error (e, s) => .error (e, s.close)
      | .ok log => .ok log

def drop (log : Log FileStore) : Volume := log.store.close

end Dataflow.Log
