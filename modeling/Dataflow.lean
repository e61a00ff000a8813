import Dataflow.Engine.Guarded
import Dataflow.Engine.Json
import Dataflow.Log.File
import Dataflow.Log.Json
import Dataflow.Log.Session
import Dataflow.Proofs.Engine.Atomicity
import Dataflow.Proofs.Engine.Bookkeeping
import Dataflow.Proofs.Engine.Confluence
import Dataflow.Proofs.Engine.Dispatch
import Dataflow.Proofs.Engine.Lifecycle
import Dataflow.Proofs.Engine.Reuse
import Dataflow.Proofs.Frame.Exactness
import Dataflow.Proofs.Json.Forms
import Dataflow.Proofs.Log.Alteration
import Dataflow.Proofs.Log.Durability
import Dataflow.Proofs.Log.FailedWrites
import Dataflow.Proofs.Log.KeyValues
import Dataflow.Proofs.Log.Ledger
import Dataflow.Proofs.Log.Loss
import Dataflow.Proofs.Log.Numbering
import Dataflow.Proofs.Log.Provenance
import Dataflow.Proofs.Log.Reading
import Dataflow.Proofs.Log.Recency
import Dataflow.Proofs.Log.Recovery
import Dataflow.Proofs.Log.Replay
import Dataflow.Proofs.Log.Scanning
import Dataflow.Proofs.Memo.Decoding
import Dataflow.Proofs.Memo.Key
import Dataflow.Proofs.RedBlack.Faultless
import Dataflow.Proofs.RedBlack.Renaming
import Dataflow.Proofs.RedBlack.Verdict
import Dataflow.Proofs.Store.Agreement
import Dataflow.Proofs.Store.Marks
import Dataflow.RedBlack.Erase
import Dataflow.RedBlack.Violation
import Dataflow.Store.Faulty
import Dataflow.Store.Memory
import Dataflow.Text.Caseless
