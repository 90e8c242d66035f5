import OsProjects.CTypes
import OsProjects.Monitor
import OsProjects.Transition
import Mathlib.Logic.Function.Basic

/-! # One shared segment: `handle_with_cache` and `cache_worker`

The two processes of the proxy exchange one file through one shared memory segment
(`proj3/handle_with_cache.c`, `proj3/simplecached.c`).  The model runs one call of
`handle_with_cache`, from `create_shm_channel` to its `return`, against the `cache_worker`
that serves its message.  Every access to a field of `struct shm_data_t` or to the data area
behind it, every mutex operation, every test of a waiting loop, every release-and-sleep and
every signal is one step of one side (`handlerStep`, `workerStep`).

* **Layouts.** Each side locks the mutex at the position where its *own* definition of
  `struct shm_data_t` puts it; the two definitions order `data_mutex` and `file_len_mutex`
  differently (`proxyLayout`, `cacheLayout`).
* **Environment.** The result of `gfs_send` (or of the final `gfs_sendheader`) is the argument
  of a handler step, the result of `pread` the argument of a worker step.  Both are arbitrary
  up to the interface of `pread` (`Env.PreadOk`); run conditions restrict them where a
  theorem assumes more.
* **Left out.** The pool part of `destroy_shm_seg` is the single step `release` here and is
  opened up in the model of the whole proxy; `mq_open`, `mmap`, `munmap` and the
  initialisation and destruction of mutexes have no effect on the fields. -/

namespace OsProjects.Channel

open Monitor Transition

/-- Status arguments of `gfs_sendheader`. -/
inductive Gfstatus where
  | ok
  | fileNotFound
  | error
deriving DecidableEq, Repr

/-- The two processes. -/
inductive Side where
  | proxy
  | cache
deriving DecidableEq, Repr

/-- Positions of the two mutexes in a definition of `struct shm_data_t`. -/
structure Layout where
  dataMutex : ℕ
  fileLenMutex : ℕ
deriving DecidableEq, Repr

/-- `struct shm_data_t` of `handle_with_cache.c`: `data_mutex`, then `file_len_mutex`. -/
def proxyLayout : Layout := ⟨0, 1⟩

/-- `struct shm_data_t` of `simplecached.c`: `file_len_mutex`, then `data_mutex`. -/
def cacheLayout : Layout := ⟨1, 0⟩

/-- What one exchange depends on: the way waiting loops are read, the two layouts,
`sizeof(shm_data)`, the segment size of the message, and the file that `simplecache_get`
finds for its path (`none`: a negative descriptor). -/
structure Env where
  mode : Mode
  proxy : Layout
  cache : Layout
  sizeofShmData : ℕ
  segmentSize : ℤ
  file : Option (List Byte)
  /-- `segment_size` is an `int`. -/
  segmentSize_lt : segmentSize < 2 ^ 31

theorem kilobyte_lt : (1024 : ℤ) < 2 ^ 31 := by decide

namespace Env

variable (E : Env)

/-- The file's bytes. -/
def contents : List Byte := E.file.getD []

/-- `file_len` of `cache_worker`: the `off_t` of `lseek` stored in an `int`, or `-1`. -/
def fileLen : ℤ :=
  match E.file with
  | some f => cInt f.length
  | none => -1

/-- The count `(msg->segment_size - sizeof(shm_data)) - 1` given to `pread`, a `size_t`. -/
def count : ℕ := sizeT (E.segmentSize - E.sizeofShmData - 1)

/-- `pread` at offset `off` may return `r`: an error, or at most `count` bytes of the file. -/
def PreadOk (off r : ℤ) : Prop :=
  r = -1 ∨ (0 ≤ off ∧ 0 ≤ r ∧ r ≤ E.count ∧ off + r ≤ E.contents.length)

instance (off r : ℤ) : Decidable (E.PreadOk off r) :=
  inferInstanceAs (Decidable (_ ∨ _))

/-- The bytes that `pread` stores when it returns `r`. -/
def chunk (off r : ℤ) : List Byte := (E.contents.drop off.toNat).take r.toNat

end Env

/-- Program points of `handle_with_cache`, with `create_shm_channel` and `destroy_shm_seg`. -/
inductive HPc where
  | createLength                -- mem->file_length = 0, in create_shm_channel
  | createWritten               -- mem->bytes_written = 0
  | mqSend
  | waitLength (w : Wait)       -- while (mem->file_length == 0)
  | readLength                  -- file_len = mem->file_length
  | unlockLength
  | broadcastLength
  | branch                      -- if (file_len < 0), gfs_sendheader
  | loop                        -- while (bytes_transferred < file_len)
  | waitChunk (w : Wait)        -- while (mem->bytes_written == 0)
  | readChunk                   -- read_len = mem->bytes_written
  | send                        -- gfs_send and the test of its result
  | clear                       -- mem->bytes_written = 0
  | unlockChunk
  | broadcastChunk
  | advance                     -- bytes_transferred += write_len
  | destroyLength               -- mem->file_length = 0, in destroy_shm_seg
  | destroyWritten              -- mem->bytes_written = 0
  | release                     -- the id goes back to fldes_queue
  | reply                       -- the final gfs_sendheader, or return bytes_transferred
  | returned
  | failed                      -- return EXIT_FAILURE after a short gfs_send
deriving DecidableEq, Repr

/-- Program points of one round of `cache_worker`. -/
inductive WPc where
  | get                         -- simplecache_get and lseek, once the message is there
  | zeroLength                  -- mem->file_length = 0
  | checkLength                 -- if (mem->file_length != 0) exit(1)
  | waitLength (w : Wait)       -- while (mem->file_length != 0)
  | setLength                   -- mem->file_length = file_len
  | zeroWritten                 -- mem->bytes_written = 0
  | unlockLength
  | broadcastLength
  | branch                      -- if (cache_fldes < 0)
  | loop                        -- while (bytes_written < file_len)
  | waitSlot (w : Wait)         -- while (mem->bytes_written != 0)
  | pread
  | publish                     -- mem->bytes_written = read_len
  | signal
  | unlockSlot
  | advance                     -- bytes_written += read_len
  | finished
  | exited
deriving DecidableEq, Repr

/-- A broadcast on `proxy_cond`. -/
def HPc.wake : HPc → HPc
  | waitLength w => waitLength w.wake
  | waitChunk w => waitChunk w.wake
  | p => p

/-- A broadcast on `cache_cond`. -/
def WPc.wake : WPc → WPc
  | waitLength w => waitLength w.wake
  | waitSlot w => waitSlot w.wake
  | p => p

/-- One call of `gfs_send`: the length asked for, the bytes passed, the value stored in
`write_len`. -/
structure Send where
  len : ℤ
  bytes : List Byte
  result : ℤ
deriving DecidableEq, Repr

/-- The segment, and the locals of both sides.  `headers`, `sends` and `ret` record what the
handler passes to `gfs_sendheader` and `gfs_send` and what it returns. -/
structure State where
  fileLength : ℤ
  bytesWritten : ℤ
  data : List Byte
  mutex : ℕ → Option Side
  sent : Bool
  hpc : HPc
  fileLen : ℤ
  bytesTransferred : ℤ
  readLen : ℤ
  writeLen : ℤ
  headers : List (Gfstatus × ℕ)
  sends : List Send
  ret : Option ℤ
  wpc : WPc
  wFileLen : ℤ
  wBytesWritten : ℤ
  wReadLen : ℤ

/-- The body bytes passed to `gfs_send` so far. -/
def State.body (s : State) : List Byte := (s.sends.map Send.bytes).flatten

/-- The handler has returned, with success or not. -/
def State.Returned (s : State) : Prop := s.hpc = .returned ∨ s.hpc = .failed

/-- A fresh segment is zero-filled; nothing is locked. -/
def init (E : Env) : State where
  fileLength := 0
  bytesWritten := 0
  data := List.replicate (E.segmentSize - E.sizeofShmData).toNat 0
  mutex := fun _ => none
  sent := false
  hpc := .createLength
  fileLen := 0
  bytesTransferred := 0
  readLen := 0
  writeLen := 0
  headers := []
  sends := []
  ret := none
  wpc := .get
  wFileLen := 0
  wBytesWritten := 0
  wReadLen := 0

/-- A step of the handler's loop `lock(m); while (!ok) cond_wait(proxy_cond, m);`. -/
def State.waitHandler (s : State) (mode : Mode) (m : ℕ) (ok : Bool) (point : Wait → HPc)
    (next : HPc) (w : Wait) : Option State :=
  (w.step mode (s.mutex m).isNone ok).map fun r =>
    { s with
      mutex := Function.update s.mutex m (r.1.apply Side.proxy (s.mutex m))
      hpc := r.2.elim next point }

/-- A step of the worker's loop `lock(m); while (!ok) cond_wait(cache_cond, m);`. -/
def State.waitWorker (s : State) (mode : Mode) (m : ℕ) (ok : Bool) (point : Wait → WPc)
    (next : WPc) (w : Wait) : Option State :=
  (w.step mode (s.mutex m).isNone ok).map fun r =>
    { s with
      mutex := Function.update s.mutex m (r.1.apply Side.cache (s.mutex m))
      wpc := r.2.elim next point }

def State.unlock (s : State) (m : ℕ) : State :=
  { s with mutex := Function.update s.mutex m none }

/-- The call of `gfs_send` with result `w`, and the test `write_len != read_len`. -/
def State.gfsSend (s : State) (w : ℤ) : State :=
  let s' := { s with
    writeLen := cInt w
    sends := s.sends ++ [Send.mk s.readLen (s.data.take (sizeT s.readLen)) (cInt w)] }
  if cInt w ≠ s.readLen then { s' with hpc := .failed, ret := some 1 }
  else { s' with hpc := .clear }

/-- The end of the handler: the file-not-found header with result `w`, or the bytes sent. -/
def State.replyWith (s : State) (w : ℤ) : State :=
  if s.fileLen < 0 then
    { s with headers := s.headers ++ [(.fileNotFound, 0)], ret := some w, hpc := .returned }
  else { s with ret := some s.bytesTransferred, hpc := .returned }

/-- One step of `handle_with_cache`; `w` is the result of a call that sends. -/
def handlerStep (E : Env) (s : State) (w : ℤ) : Option State :=
  match s.hpc with
  | .createLength => some { s with fileLength := 0, hpc := .createWritten }
  | .createWritten => some { s with bytesWritten := 0, hpc := .mqSend }
  | .mqSend => some { s with sent := true, hpc := .waitLength .lock }
  | .waitLength p =>
      s.waitHandler E.mode E.proxy.fileLenMutex (s.fileLength ≠ 0) .waitLength .readLength p
  | .readLength => some { s with fileLen := s.fileLength, hpc := .unlockLength }
  | .unlockLength => some { s.unlock E.proxy.fileLenMutex with hpc := .broadcastLength }
  | .broadcastLength => some { s with wpc := s.wpc.wake, hpc := .branch }
  | .branch =>
      if s.fileLen < 0 then some { s with hpc := .destroyLength }
      else some { s with
        headers := s.headers ++ [(.ok, sizeT s.fileLen)], bytesTransferred := 0, hpc := .loop }
  | .loop =>
      some { s with
        hpc := if s.bytesTransferred < s.fileLen then .waitChunk .lock else .destroyLength }
  | .waitChunk p =>
      s.waitHandler E.mode E.proxy.dataMutex (s.bytesWritten ≠ 0) .waitChunk .readChunk p
  | .readChunk => some { s with readLen := s.bytesWritten, hpc := .send }
  | .send => some (s.gfsSend w)
  | .clear => some { s with bytesWritten := 0, hpc := .unlockChunk }
  | .unlockChunk => some { s.unlock E.proxy.dataMutex with hpc := .broadcastChunk }
  | .broadcastChunk => some { s with wpc := s.wpc.wake, hpc := .advance }
  | .advance => some { s with bytesTransferred := s.bytesTransferred + s.writeLen, hpc := .loop }
  | .destroyLength => some { s with fileLength := 0, hpc := .destroyWritten }
  | .destroyWritten => some { s with bytesWritten := 0, hpc := .release }
  | .release => some { s with hpc := .reply }
  | .reply => some (s.replyWith w)
  | .returned => none
  | .failed => none

/-- One step of `cache_worker`; `r` is the result of `pread`. -/
def workerStep (E : Env) (s : State) (r : ℤ) : Option State :=
  match s.wpc with
  | .get => if s.sent then some { s with wFileLen := E.fileLen, wpc := .zeroLength } else none
  | .zeroLength => some { s with fileLength := 0, wpc := .checkLength }
  | .checkLength => some { s with wpc := if s.fileLength ≠ 0 then .exited else .waitLength .lock }
  | .waitLength p =>
      s.waitWorker E.mode E.cache.fileLenMutex (s.fileLength = 0) .waitLength .setLength p
  | .setLength => some { s with fileLength := s.wFileLen, wpc := .zeroWritten }
  | .zeroWritten => some { s with bytesWritten := 0, wpc := .unlockLength }
  | .unlockLength => some { s.unlock E.cache.fileLenMutex with wpc := .broadcastLength }
  | .broadcastLength => some { s with hpc := s.hpc.wake, wpc := .branch }
  | .branch =>
      if E.file.isNone then some { s with wpc := .finished }
      else some { s with wBytesWritten := 0, wpc := .loop }
  | .loop =>
      some { s with wpc := if s.wBytesWritten < s.wFileLen then .waitSlot .lock else .finished }
  | .waitSlot p =>
      s.waitWorker E.mode E.cache.dataMutex (s.bytesWritten = 0) .waitSlot .pread p
  | .pread =>
      if E.PreadOk s.wBytesWritten r then
        some { s with
          data := E.chunk s.wBytesWritten r ++ s.data.drop r.toNat
          wReadLen := cInt r
          wpc := .publish }
      else none
  | .publish => some { s with bytesWritten := s.wReadLen, wpc := .signal }
  | .signal => some { s with hpc := s.hpc.wake, wpc := .unlockSlot }
  | .unlockSlot => some { s.unlock E.cache.dataMutex with wpc := .advance }
  | .advance => some { s with wBytesWritten := s.wBytesWritten + s.wReadLen, wpc := .loop }
  | .finished => none
  | .exited => none

/-- Who moves.  A sleeper may also wake without a signal, as POSIX allows. -/
inductive Act where
  | handler (w : ℤ)
  | worker (r : ℤ)
  | spuriousHandler
  | spuriousWorker
deriving DecidableEq, Repr

/-- One step of the exchange. -/
def step (E : Env) (s : State) : Act → Option State
  | .handler w => handlerStep E s w
  | .worker r => workerStep E s r
  | .spuriousHandler => some { s with hpc := s.hpc.wake }
  | .spuriousWorker => some { s with wpc := s.wpc.wake }

/-- States reached by runs whose steps all meet `ok`. -/
abbrev Reachable (E : Env) (ok : State → Act → Prop) (s : State) : Prop :=
  Reach (step E) ok (init E) s

end OsProjects.Channel
