import OsProjects.GetfileClient
import OsProjects.Transition

/-! # Request handles of the GETFILE client

`GetfileClient.lean` describes what `gfc_perform` does to the content of a `gfcrequest_t`.  Here the
structure is a cell of the heap, live or freed: `gfc_perform` of `proj1/getfile/gfclient.c` with
what its returns do to the cell, and the download loop of `proj1/getfile/gfclient_download.c`
around it.

* **Handles.** `gfc_create` makes a new cell with whatever content `malloc` gives; handles are the
  numbers of the cells, so a reused address is a new handle.
* **Returns.** `gfc_cleanup` goes before every return of the loop over `recv`, and before none of
  the two in front of it.  The result is `none` where `gfc_perform` has no defined behaviour, and
  the process is taken to die there.
* **Uses.** A read of a freed cell gives nothing, nor does a comparison of a text that nobody has
  set.  An iteration records the content that `gfc_perform` left in the cell, and what the uses of
  the handle found.

Main results: `cleanup_iff`, `gfc_perform` frees the cell exactly if it got a connection;
`usable_iff`, exactly when the loop finds its handles usable. -/

namespace OsProjects.Getfile

open Transition

/-! ### The returns of `gfc_perform` -/

/-- A return: its value, the request, and whether `gfc_cleanup(gfr)` goes before it. -/
structure Return where
  ret : ℤ
  gfr : Request
  cleanup : Bool
deriving DecidableEq, Repr

/-- What a call of `gfc_perform` meets: whether `socket` and `connect` succeed, what the heap holds
behind the copy of the first piece, and the results of `recv`. -/
structure Response where
  socket : Bool
  connect : Bool
  heap : List Byte
  recvs : List Recv

/-- `gfc_perform`. -/
def gfcPerformCell (gfr : Request) (r : Response) : Option Return :=
  if !r.socket then some ⟨-1, gfr, false⟩
  else if !r.connect then some ⟨-1, gfr, false⟩
  else (perform r.heap gfr r.recvs).map fun s => ⟨s.1, s.2.gfr, true⟩

/-! ### The download loop -/

/-- A cell that `gfc_create` has made. -/
inductive Cell where
  | live (gfr : Request)
  | freed
deriving DecidableEq, Repr

/-- `gfc_create`: the structure as `malloc` gives it. -/
def gfcCreate (fresh : Request) : Request := { fresh with statusText := none }

/-- A function of the structure at a handle, or nothing if it has been freed. -/
def readCell {α : Type*} (cells : List Cell) (gfr : ℕ) (f : Request → Option α) : Option α :=
  match cells[gfr]? with
  | some (.live r) => f r
  | _ => none

def gfcGetBytesreceived (gfr : Request) : Option ℕ := some gfr.bytesOfFileReceived

def gfcGetFilelen (gfr : Request) : Option ℕ := some gfr.filelength

/-- What one iteration does with its handle after `gfc_create`: the content that `gfc_perform`
left, for each `gfc_cleanup` whether the cell was live, and the results of the three functions that
read it. -/
structure Iteration where
  returncode : ℤ
  left : Request
  cleanups : List Bool
  statuses : List (Option Gfstatus)
  bytesreceived : Option ℕ
  filelen : Option ℕ
deriving DecidableEq, Repr

/-- One request of the loop: its path, the content of its fresh cell, and the response. -/
structure Download where
  path : List Byte
  fresh : Request
  response : Response

structure ClientState where
  cells : List Cell
  exited : Bool
  downloads : List Download
  iterations : List Iteration

/-- `gfc_cleanup(gfr)`: the cells, and whether the cell was live. -/
def gfcCleanup (cells : List Cell) (gfr : ℕ) : List Cell × Bool :=
  (cells.set gfr .freed, (readCell cells gfr some).isSome)

/-- One iteration of the loop over the requests. -/
def downloadStep (s : ClientState) (d : Download) : Option ClientState :=
  if s.exited then none
  else if 256 < d.path.length then some { s with exited := true }
  else
    let gfr := s.cells.length
    (gfcPerformCell (gfcCreate d.fresh) d.response).map fun r =>
      let cells := s.cells ++ [.live r.gfr]
      let cleaned := if r.cleanup then gfcCleanup cells gfr else (cells, true)
      { s with
        cells := cleaned.1
        downloads := s.downloads ++ [d]
        iterations := s.iterations ++ [{
          returncode := r.ret
          left := r.gfr
          cleanups := if r.cleanup then [cleaned.2] else []
          -- the test of the status, and the message with it
          statuses := [readCell cleaned.1 gfr gfcGetStatus, readCell cleaned.1 gfr gfcGetStatus]
          bytesreceived := readCell cleaned.1 gfr gfcGetBytesreceived
          filelen := readCell cleaned.1 gfr gfcGetFilelen }] }

def clientInit : ClientState := ⟨[], false, [], []⟩

/-- States between the iterations. -/
abbrev ClientReachable (s : ClientState) : Prop := Reach downloadStep Any clientInit s

/-! ### What `gfc_perform` does to the cell -/

/-- The connection is established. -/
def Response.connected (r : Response) : Bool := r.socket && r.connect

section perform
variable {r : Response} {gfr : Request} {ret : Return}

theorem gfcPerformCell_of_not_connected (gfr : Request) (h : r.connected = false) :
    gfcPerformCell gfr r = some ⟨-1, gfr, false⟩ := by
  rw [Response.connected, Bool.and_eq_false_iff] at h
  cases hs : r.socket with
  | false => rw [gfcPerformCell, hs]; rfl
  | true =>
      have hc : r.connect = false := h.resolve_left (by simp [hs])
      rw [gfcPerformCell, hs, hc]
      rfl

/-- Once it is connected, every return frees the cell. -/
theorem cleanup_iff (h : gfcPerformCell gfr r = some ret) :
    ret.cleanup = true ↔ r.connected = true := by
  cases hc : r.connected with
  | false =>
      rw [gfcPerformCell_of_not_connected gfr hc] at h
      obtain rfl := Option.some.inj h
      simp
  | true =>
      obtain ⟨hs, hc⟩ := Bool.and_eq_true_iff.mp hc
      simp only [gfcPerformCell, hs, hc, Bool.not_true, Bool.false_eq_true, if_false] at h
      obtain ⟨_, _, rfl⟩ := Option.map_eq_some_iff.mp h
      simp

end perform

/-! ### The uses of the handles -/

/-- Every use of the handle found the cell live, and the three functions returned what
`gfc_perform` had left in it. -/
structure Iteration.Usable (it : Iteration) : Prop where
  cleanups : ∀ live ∈ it.cleanups, live = true
  statuses : ∀ status ∈ it.statuses, status.isSome = true ∧ status = gfcGetStatus it.left
  bytesreceived : it.bytesreceived = gfcGetBytesreceived it.left
  filelen : it.filelen = gfcGetFilelen it.left

theorem readCell_append {α : Type*} (cells : List Cell) (c : Cell) (f : Request → Option α) :
    readCell (cells ++ [c]) cells.length f = match c with
      | .live r => f r
      | .freed => none := by
  unfold readCell
  rw [List.getElem?_concat_length]
  cases c <;> rfl

theorem gfcCleanup_append (cells : List Cell) (c : Cell) :
    (gfcCleanup (cells ++ [c]) cells.length).1 = cells ++ [.freed] := by
  simp [gfcCleanup]

theorem not_usable_step {s s' : ClientState} {d : Download} (h : downloadStep s d = some s') :
    (s'.downloads = s.downloads ∧ s'.iterations = s.iterations) ∨
    (s'.downloads = s.downloads ++ [d] ∧ ∃ it, s'.iterations = s.iterations ++ [it] ∧
      ¬it.Usable) := by
  unfold downloadStep at h
  split at h
  · cases h
  split at h
  · obtain rfl := Option.some.inj h
    exact .inl ⟨rfl, rfl⟩
  · obtain ⟨r, hr, rfl⟩ := Option.map_eq_some_iff.mp h
    refine .inr ⟨rfl, _, rfl, fun hu => ?_⟩
    cases hc : d.response.connected with
    | true =>
        have hcleanup := (cleanup_iff hr).mpr hc
        have hfilelen := hu.filelen
        simp [hcleanup, gfcCleanup_append, readCell_append, gfcGetFilelen] at hfilelen
    | false =>
        rw [gfcPerformCell_of_not_connected _ hc] at hr
        obtain rfl := Option.some.inj hr
        obtain ⟨hstatus, -⟩ := hu.statuses _ List.mem_cons_self
        simp [readCell_append, gfcGetStatus, gfcCreate] at hstatus

/-- **No handle is usable until its owner frees it**: the uses are as they should be exactly if no
request is made at all. -/
theorem usable_iff (s : ClientState) (h : ClientReachable s) :
    (∀ it ∈ s.iterations, it.Usable) ↔ s.downloads = [] := by
  induction h with
  | refl => simp [clientInit]
  | step _ _ hs ih =>
      obtain ⟨hd, hit⟩ | ⟨hd, it, hit, hu⟩ := not_usable_step hs
      · rw [hd, hit]
        exact ih
      · rw [hd, hit]
        refine iff_of_false (fun hall => hu ?_) (by simp)
        exact hall it (List.mem_append_right _ (List.mem_singleton_self it))

/-- A request for one path whose connection is closed at once. -/
def closedAtOnce (connect : Bool) : Download :=
  ⟨str "/a", ⟨.error, none, 0, 0, [], false⟩, ⟨true, connect, [], []⟩⟩

theorem usable_iff_noServer : ∃ s, ClientReachable s ∧
    s.cells = [.live ⟨.error, none, 0, 0, [], false⟩] ∧ ¬∀ it ∈ s.iterations, it.Usable := by
  obtain ⟨s, hs⟩ := Option.isSome_iff_exists.mp (by decide :
    (exec downloadStep clientInit [closedAtOnce false]).isSome = true)
  have hr := reach_of_exec _ hs
  obtain rfl := Option.some.inj hs
  refine ⟨_, hr, rfl, fun hall => ?_⟩
  exact absurd ((usable_iff _ hr).mp hall) (by simp)

/-- A connection that is closed at once: the loop reads the structure that `gfc_perform` freed. -/
theorem not_usable_closedAtOnce : ∃ s, ClientReachable s ∧ ∃ it ∈ s.iterations, ¬it.Usable := by
  obtain ⟨s, hs⟩ := Option.isSome_iff_exists.mp (by decide :
    (exec downloadStep clientInit [closedAtOnce true]).isSome = true)
  have hr := reach_of_exec _ hs
  obtain rfl := Option.some.inj hs
  refine ⟨_, hr, _, List.mem_cons_self, fun hu => ?_⟩
  exact absurd hu.filelen (by decide)

end OsProjects.Getfile
