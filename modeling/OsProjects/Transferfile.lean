import OsProjects.CTypes
import Mathlib.Data.List.Infix
import Mathlib.Data.List.DropRight

/-! # The file transfer of `transferclient` and `transferserver`

`proj1/transferfile`: the client sends its file over one connection and receives the server's file
over a second one, with the same two loops on both sides.

* **Sending.** A round is what `fread` gives and what the `send` of that block returns; behind the
  list `fread` gives no bytes.  `send` puts as many bytes on the connection as it returns.
* **Receiving.** An arrival is the result of one `recv` and that of the `fwrite` after it; behind
  the list the connection is closed and `recv` gives no bytes.
* **Left out.** Names, `fopen`, `bzero` of the buffers, which are overwritten before they are read
  again, and the messages.

Main results: `sendFile_sublist`, what the loop sends is the file less what it leaves out;
`receiveFile_pieces`, the receiver keeps every fragmentation together; `transfer_iff`, exactly when
both files arrive. -/

namespace OsProjects.Transferfile

/-- `BUFSIZE`. -/
def bufsize : ℕ := 4096

/-! ### The two loops -/

/-- One round of the sending loop: the block of `fread`, and the result of `send`. -/
structure Round where
  block : List Byte
  sent : ℤ
deriving DecidableEq, Repr

/-- The bytes on the connection when the sender closes it, and whether it has called `exit(1)`. -/
structure Sent where
  wire : List Byte
  exited : Bool
deriving DecidableEq, Repr

/-- `while ((fs_block_size = fread(...)) > 0)`. -/
def sendFile : List Round → Sent
  | [] => ⟨[], false⟩
  | r :: rs =>
      if r.block.length = 0 then ⟨[], false⟩
      else if r.sent < 0 then ⟨[], true⟩
      else
        let out := r.block.take r.sent.toNat
        if r.block.length ≠ bufsize then ⟨out, false⟩
        else
          let more := sendFile rs
          ⟨out ++ more.wire, more.exited⟩

/-- The result of `recv`; failures are those with `errno == EAGAIN` and the others. -/
inductive Recv where
  | data (p : List Byte)
  | again
  | failed
deriving DecidableEq, Repr

/-- One round of the receiving loop: the result of `recv`, and the number of bytes that `fwrite`
writes. -/
structure Arrival where
  recv : Recv
  written : ℕ
deriving DecidableEq, Repr

/-- The bytes written to the file, and whether the receiver has called `exit(1)`. -/
structure Received where
  file : List Byte
  exited : Bool
deriving DecidableEq, Repr

/-- `while ((fr_block_size = recv(...)) > 0)`; `onError` is whether a failed `recv` is followed by
`exit(1)`. -/
def receiveFile (onError : Bool) : List Arrival → Received
  | [] => ⟨[], false⟩
  | ⟨.again, _⟩ :: _ => ⟨[], false⟩
  | ⟨.failed, _⟩ :: _ => ⟨[], onError⟩
  | ⟨.data p, written⟩ :: as =>
      if p.length = 0 then ⟨[], false⟩
      else if written < p.length then ⟨p.take written, true⟩
      else
        let more := receiveFile onError as
        ⟨p ++ more.file, more.exited⟩

/-- The loop of `transferserver`, which goes on after a failed `recv`. -/
def serverReceive : List Arrival → Received := receiveFile false

/-- The loop of `transferclient`. -/
def clientReceive : List Arrival → Received := receiveFile true

/-- The loop of `transferclient`. -/
def clientSend : List Round → Sent := sendFile

/-- The loop of `transferserver`. -/
def serverSend : List Round → Sent := sendFile

/-! ### What the calls may return -/

/-- The file that the rounds read. -/
def file (rounds : List Round) : List Byte := (rounds.map Round.block).flatten

/-- Blocks of at most `BUFSIZE` bytes up to the end of the file; every `send` passes on at least
one byte and at most the whole block. -/
def Permitted (rounds : List Round) : Prop :=
  ∀ r ∈ rounds, r.block ≠ [] ∧ r.block.length ≤ bufsize ∧ 1 ≤ r.sent ∧ r.sent ≤ r.block.length

/-- Every `send` passes on the whole block, and only the last block is shorter than `BUFSIZE`. -/
def Complete (rounds : List Round) : Prop :=
  (∀ r ∈ rounds, r.sent = r.block.length) ∧ ∀ r ∈ rounds.dropLast, r.block.length = bufsize

/-- The arrivals are the bytes of the connection in some fragmentation, each written as a whole. -/
def Fragments (wire : List Byte) (arrivals : List Arrival) : Prop :=
  ∃ pieces : List (List Byte),
    pieces.flatten = wire ∧ (∀ p ∈ pieces, p ≠ [] ∧ p.length ≤ bufsize) ∧
      arrivals = pieces.map fun p => ⟨.data p, p.length⟩

/-! ### Sending -/

theorem file_cons (r : Round) (rs : List Round) : file (r :: rs) = r.block ++ file rs := by
  simp [file]

theorem sendFile_cons {r : Round} (rs : List Round) (hb : r.block ≠ []) (hs : 0 ≤ r.sent) :
    (sendFile (r :: rs)).wire = r.block.take r.sent.toNat ++
      if r.block.length = bufsize then (sendFile rs).wire else [] := by
  rw [sendFile, if_neg (by simpa using hb), if_neg (by omega)]
  by_cases hfull : r.block.length = bufsize
  · simp [hfull]
  · simp [hfull]

/-- What the loop sends is the file with parts left out. -/
theorem sendFile_sublist (rounds : List Round) :
    (sendFile rounds).wire.Sublist (file rounds) := by
  induction rounds with
  | nil => exact List.Sublist.slnil
  | cons r rs ih =>
      rw [file_cons]
      by_cases hb : r.block = []
      · simp [sendFile, hb]
      by_cases hs : r.sent < 0
      · simp [sendFile, hb, hs]
      rw [sendFile_cons rs hb (by omega)]
      apply (List.take_sublist _ _).append
      split
      · exact ih
      · exact List.nil_sublist _

theorem sendFile_complete {rounds : List Round} (hP : Permitted rounds) (hC : Complete rounds) :
    (sendFile rounds).wire = file rounds := by
  induction rounds with
  | nil => rfl
  | cons r rs ih =>
      obtain ⟨hb, _, hs, _⟩ := hP r (by simp)
      have hsent := hC.1 r (by simp)
      rw [sendFile_cons rs hb (by omega), file_cons, hsent, Int.toNat_natCast, List.take_length]
      cases rs with
      | nil => simp [sendFile, file]
      | cons r' rs =>
          have hfull : r.block.length = bufsize := hC.2 r (by simp)
          rw [if_pos hfull, ih (fun q hq => hP q (by simp [hq]))
            ⟨fun q hq => hC.1 q (by simp [hq]), fun q hq => hC.2 q ?_⟩]
          simpa using .inr hq

theorem complete_of_length {rounds : List Round} (hP : Permitted rounds)
    (hlen : (sendFile rounds).wire.length = (file rounds).length) : Complete rounds := by
  induction rounds with
  | nil => exact ⟨by simp, by simp⟩
  | cons r rs ih =>
      obtain ⟨hb, _, hs, hle⟩ := hP r (by simp)
      have hP' : Permitted rs := fun q hq => hP q (by simp [hq])
      have hrest := (sendFile_sublist rs).length_le
      rw [sendFile_cons rs hb (by omega), file_cons, List.length_append, List.length_append,
        List.length_take] at hlen
      by_cases hfull : r.block.length = bufsize
      · rw [if_pos hfull] at hlen
        obtain ⟨hsent, hblocks⟩ := ih hP' (by omega)
        have hr : r.sent = r.block.length := by omega
        refine ⟨by simpa [hr] using hsent, fun q hq => ?_⟩
        cases rs with
        | nil => cases hq
        | cons r' rs =>
            rcases List.mem_cons.mp hq with rfl | hq
            · exact hfull
            · exact hblocks q hq
      · -- the loop stops here, so there is nothing behind this block
        rw [if_neg hfull] at hlen
        have hnil : rs = [] := by
          cases rs with
          | nil => rfl
          | cons r' rs =>
              have hb' : 0 < r'.block.length := List.length_pos_iff.mpr (hP' r' (by simp)).1
              rw [file_cons, List.length_append] at hlen
              simp only [List.length_nil] at hlen
              omega
        subst hnil
        simp only [List.length_nil, file, List.map_nil, List.flatten_nil] at hlen
        exact ⟨by simp; omega, by simp⟩

/-- **The bytes on the connection are the file exactly when the rounds are complete.** -/
theorem sendFile_eq_iff {rounds : List Round} (hP : Permitted rounds) :
    (sendFile rounds).wire = file rounds ↔ Complete rounds := by
  constructor
  · intro h
    exact complete_of_length hP (congrArg List.length h)
  · exact sendFile_complete hP

/-! ### Receiving -/

/-- Every fragmentation is put together again. -/
theorem receiveFile_pieces (onError : Bool) {wire : List Byte} {arrivals : List Arrival}
    (hF : Fragments wire arrivals) : (receiveFile onError arrivals).file = wire := by
  obtain ⟨pieces, rfl, hpieces, rfl⟩ := hF
  induction pieces with
  | nil => rfl
  | cons p ps ih =>
      have hp : p.length ≠ 0 := by simpa using (hpieces p (by simp)).1
      have ih := ih fun q hq => hpieces q (by simp [hq])
      rw [List.map_cons, receiveFile, if_neg hp, if_neg (lt_irrefl _)]
      dsimp only
      rw [ih, List.flatten_cons]

/-! ### Both transfers -/

/-- One run of both programs: what the client reads and sends, what arrives at the server, and the
same for the way back. -/
structure Session where
  upload : List Round
  uploaded : List Arrival
  download : List Round
  downloaded : List Arrival

/-- All calls return what their interface permits, and the connections carry what is sent. -/
structure Session.Permitted (S : Session) : Prop where
  upload : Transferfile.Permitted S.upload
  uploaded : Fragments (clientSend S.upload).wire S.uploaded
  download : Transferfile.Permitted S.download
  downloaded : Fragments (serverSend S.download).wire S.downloaded

/-- Both files arrive as they were read. -/
def Session.Kept (S : Session) : Prop :=
  (serverReceive S.uploaded).file = file S.upload ∧
    (clientReceive S.downloaded).file = file S.download

/-- **Exactly when the file transfer keeps the content**: in both directions every `send` passes on
the whole block, and no block but the last is short. -/
theorem transfer_iff (S : Session) (h : S.Permitted) :
    S.Kept ↔ Complete S.upload ∧ Complete S.download := by
  have hup := receiveFile_pieces false h.uploaded
  have hdown := receiveFile_pieces true h.downloaded
  unfold Session.Kept serverReceive clientReceive
  rw [hup, hdown]
  exact and_congr (sendFile_eq_iff h.upload) (sendFile_eq_iff h.download)

/-- A file of two bytes one way and of one byte back, the first in two pieces. -/
def wholeSend : Session where
  upload := [⟨[97, 98], 2⟩]
  uploaded := [⟨.data [97], 1⟩, ⟨.data [98], 1⟩]
  download := [⟨[99], 1⟩]
  downloaded := [⟨.data [99], 1⟩]

theorem transfer_iff_wholeSend : wholeSend.Kept := by
  have h : wholeSend.Permitted := {
    upload := by
      intro r hr
      obtain rfl := List.mem_singleton.mp hr
      decide
    uploaded := ⟨[[97], [98]], rfl, by decide, rfl⟩
    download := by
      intro r hr
      obtain rfl := List.mem_singleton.mp hr
      decide
    downloaded := ⟨[[99]], rfl, by decide, rfl⟩ }
  refine (transfer_iff wholeSend h).mpr ⟨?_, ?_⟩
  · exact ⟨by decide, by decide⟩
  · exact ⟨by decide, by decide⟩

/-- The client's file is `ab`, of which `send` passes on one byte. -/
def shortSend : Session where
  upload := [⟨[97, 98], 1⟩]
  uploaded := [⟨.data [97], 1⟩]
  download := []
  downloaded := []

/-- A short `send` loses the rest of its block. -/
theorem shortSend_not_kept : shortSend.Permitted ∧ ¬ shortSend.Kept := by
  refine ⟨{
    upload := ?_
    uploaded := ⟨[[97]], rfl, by decide, rfl⟩
    download := fun r hr => by cases hr
    downloaded := ⟨[], rfl, by simp, rfl⟩ }, fun h => absurd h.1 (by decide)⟩
  intro r hr
  obtain rfl := List.mem_singleton.mp hr
  decide

end OsProjects.Transferfile
