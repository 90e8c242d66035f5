import OsProjects.ContentRows
import OsProjects.FileSending
import OsProjects.GetfileRoundTrip
import OsProjects.RequestSequence

/-! # Sessions, from the content file to the client

A whole server of `proj1/getfile`: it reads its content file, accepts connections one after the
other and answers them through `handler_get`; the client receives the answer in pieces that have
nothing to do with how it was written.

* **The site.** A content file of plain rows, each with a file that can be opened; `content` is the
  index that `content_init` makes of it and `content_get` searches.
* **The wire.** Of the operations on a socket the client sees the bytes written in front of the
  first `close`; `write` takes at most what it is given, and a header as a whole.
* `answer_header` — what a client makes of any beginning of a file behind its header.
* `sessions_answered` — in every run of the server a client whose request arrives whole gets the
  file of its key, a beginning of it with a failure, or the answer that there is none. -/

namespace OsProjects.Getfile

open ContentIndex Transition

/-! ### The site -/

/-- `content_get` on given items, and the files behind the descriptors. -/
def indexContent (items : List Item) (files : ℤ → List Byte) : Content where
  contentGet
    | none => if items = [] then some (-1) else none
    | some key =>
        match contentGet items key (items.length + 1) with
        | some (.returned fildes) => some fildes
        | _ => none
  contents := files

/-- A content file and what `open` and `qsort` do. -/
structure Site where
  qsort : List Item → List Item
  openFile : ℕ → List Byte → ℤ
  files : ℤ → List Byte
  entries : List Entry
  sorts : Sorts qsort
  plain : ∀ e ∈ entries, e.Plain
  opens : ∀ i e, entries[i]? = some e → 0 ≤ openFile i e.path
  few : entries.length < 2 ^ 30
  small : ∀ fildes, (files fildes).length < 2 ^ 63

namespace Site

variable (S : Site)

/-- The bytes of the content file. -/
def contentFile : List Byte := joined true (S.entries.map Entry.row)

/-- The items of `content_init`. -/
def items : List Item :=
  match contentInit S.qsort (rowsOf S.openFile S.contentFile) with
  | some (.ready items) => items
  | _ => []

def content : Content := indexContent S.items S.files

/-- The file of entry `i`. -/
def fileOf (i : ℕ) (e : Entry) : List Byte := S.files (S.openFile i e.path)

theorem contentInit_items :
    contentInit S.qsort (rowsOf S.openFile S.contentFile) = some (.ready S.items) ∧
      S.items.Perm (itemsOf S.openFile S.entries) := by
  obtain ⟨-, hitems, hlines⟩ : _ ∧
      (rowsOf S.openFile S.contentFile).map Row.item = itemsOf S.openFile S.entries ∧
      ∀ r ∈ rowsOf S.openFile S.contentFile, cstr r.line ≠ [] := rowsOf_newline S.openFile S.plain
  have hfildes : ∀ r ∈ rowsOf S.openFile S.contentFile, 0 ≤ r.item.fildes := by
    intro r hr
    have hmem := List.mem_map_of_mem (f := Row.item) hr
    rw [hitems] at hmem
    exact fildes_nonneg S.opens _ hmem
  have hlength : (rowsOf S.openFile S.contentFile).length = S.entries.length := by
    rw [← List.length_map (f := Row.item), hitems, itemsOf, List.length_mapIdx]
  have hfew := S.few
  obtain ⟨items, hinit, hperm⟩ := contentInit_ready S.sorts hlines hfildes (by omega)
  have heq : S.items = items := by rw [Site.items, hinit]
  rw [hitems] at hperm
  rw [heq]
  exact ⟨hinit, hperm⟩

theorem contentGet_key (key : List Byte) :
    (∃ i e, S.entries[i]? = some e ∧ e.key = key ∧
      S.content.contentGet (some key) = some (S.openFile i e.path)) ∨
      (S.content.contentGet (some key) = some (-1) ∧ ∀ e ∈ S.entries, e.key ≠ key) := by
  obtain ⟨hinit, hperm⟩ := S.contentInit_items
  obtain ⟨-, hsorted, -, hlen⟩ := contentInit_rows S.sorts hinit
  have hlast : cInt ((S.items.length : ℤ) - 1) = S.items.length - 1 :=
    cInt_of_lt (by omega) (by omega)
  have hmem : ∀ item, item ∈ S.items ↔
      ∃ i, ∃ e : Entry, S.entries[i]? = some e ∧ e.item (S.openFile i) = item := fun item => by
    simp only [hperm.mem_iff, itemsOf, List.mem_iff_getElem?, List.getElem?_mapIdx,
      Option.map_eq_some_iff]
  obtain ⟨v, hv, hfound⟩ := searchLoop_finds (sorted_strcmp hsorted key) hlen
    (SortedSearch.Window.whole _ S.items) (n := S.items.length) (by omega)
  have hget : S.content.contentGet (some key) = some v := by
    have hloop : ContentIndex.contentGet S.items key (S.items.length + 1) =
        some (.returned v) := by
      rw [ContentIndex.contentGet, hlast]
      exact hv _ (by omega)
    simp only [content, indexContent, hloop]
  rw [hget]
  obtain ⟨item, hitem, hkey, hfildes⟩ | ⟨rfl, hnone⟩ := hfound
  · obtain ⟨i, e, he, rfl⟩ := (hmem item).mp hitem
    exact .inl ⟨i, e, he, hkey, congrArg some hfildes.symm⟩
  · refine .inr ⟨rfl, fun e he => ?_⟩
    obtain ⟨i, hi⟩ := List.getElem?_of_mem he
    exact hnone _ ((hmem _).mpr ⟨i, e, hi, rfl⟩)

end Site

/-! ### The wire -/

/-- The operations that the client sees something of. -/
def transmitted (ops : List SocketOp) : List SocketOp := ops.takeWhile (· ≠ .close)

/-- The bytes that an operation has put on the connection. -/
def SocketOp.sent : SocketOp → List Byte
  | header bytes result => bytes.take result.toNat
  | body bytes result => bytes.take result.toNat
  | close => []

def sent (ops : List SocketOp) : List Byte := (transmitted ops).flatMap SocketOp.sent

/-- `write` takes at most what it is given, and a header as a whole. -/
def SocketOp.Possible : SocketOp → Prop
  | header bytes result => result = bytes.length
  | body bytes result => result ≤ bytes.length
  | close => True

/-- The pieces in which a client receives what is sent, the first with the whole header. -/
structure Cut (header : List Byte) (ops : List SocketOp) (pieces : List (List Byte)) : Prop where
  flatten : pieces.flatten = sent ops
  ne_nil : ∀ p ∈ pieces, p ≠ []
  first : header.length ≤ (pieces.headD []).length

/-- `lseek` and `pread` on this file. -/
structure Results.On (res : Results) (file : List Byte) : Prop where
  lseek : res.lseek = file.length
  rounds : PreadResults file.length res.rounds

theorem sent_cons {op : SocketOp} (h : op ≠ .close) (ops : List SocketOp) :
    sent (op :: ops) = op.sent ++ sent ops := by
  rw [sent, transmitted, List.takeWhile_cons, if_pos (by simpa using h)]
  rfl

theorem transmitted_of_close {ops : List SocketOp} (h : .close ∈ ops) (behind : List SocketOp) :
    transmitted (ops ++ behind) = transmitted ops := by
  induction ops with
  | nil => cases h
  | cons op ops ih =>
      unfold transmitted at ih ⊢
      rw [List.cons_append, List.takeWhile_cons, List.takeWhile_cons]
      by_cases hop : op = .close
      · simp [hop]
      · rw [if_pos (by simpa using hop), if_pos (by simpa using hop),
          ih ((List.mem_cons.mp h).resolve_left fun heq => hop heq.symm)]

/-- What the copy loop sends from an offset on: a part of the file, which is all of the rest exactly
if the loop does not fail. -/
theorem SentFrom.sent {file : List Byte} {n : ℕ} {ops : List SocketOp} {ret : ℤ}
    (h : SentFrom file n ops ret) (hops : ∀ op ∈ transmitted ops, op.Possible) :
    ∃ m, Getfile.sent ops = (file.drop n).take m ∧ n + m ≤ file.length ∧
      (n + m = file.length ↔ 0 ≤ ret) := by
  induction h with
  | finished => exact ⟨0, rfl, by omega, by omega⟩
  | @readError n left => exact ⟨0, rfl, by omega, by omega⟩
  | @writeError n k result left inFile short =>
      have hlen := length_part inFile
      have hle : result ≤ k := by
        have hop : (SocketOp.body ((file.drop n).take k) result).Possible :=
          hops _ (by simp [transmitted])
        rw [← hlen]
        exact hop
      refine ⟨result.toNat, ?_, by omega, by omega⟩
      rw [sent_cons (by simp)]
      simp only [SocketOp.sent, Getfile.sent, transmitted]
      rw [List.take_take, Nat.min_eq_left (by omega)]
      simp
  | @part n k ops ret sent inFile more ih =>
      have hlen := length_part inFile
      obtain ⟨m, hm, hle, hiff⟩ := ih fun op hop => hops op (by
        rw [transmitted, List.takeWhile_cons, if_pos (by simp)]
        exact List.mem_cons_of_mem _ hop)
      refine ⟨k + m, ?_, by omega, by omega⟩
      rw [sent_cons (by simp), hm, SocketOp.sent, Int.toNat_natCast, List.take_take, Nat.min_self,
        List.take_add, List.drop_drop]

/-! ### The client -/

section client
variable {heap : List Byte} {gfr : Request} {pieces : List (List Byte)}

theorem cut_header {header body : List Byte} (hflat : pieces.flatten = header ++ body)
    (hne : header ≠ []) (hfirst : header.length ≤ (pieces.headD []).length) :
    ∃ q ps, pieces = (header ++ q) :: ps ∧ q ++ ps.flatten = body := by
  cases pieces with
  | nil => exact absurd (List.length_eq_zero_iff.mp (Nat.le_zero.mp hfirst)) hne
  | cons p ps =>
      rw [List.flatten_cons] at hflat
      have hheader : header <+: p ++ ps.flatten := by
        rw [hflat]
        exact List.prefix_append _ _
      obtain ⟨q, rfl⟩ := List.prefix_of_prefix_length_le hheader (List.prefix_append p _) hfirst
      rw [List.append_assoc, List.append_cancel_left_eq] at hflat
      exact ⟨q, ps, rfl, hflat⟩

theorem header_ne_nil (n : ℕ) : (gfsSendheader gfOk n).written ≠ [] := by
  intro h
  have hlen := header_length n
  rw [h, List.length_nil] at hlen
  omega

/-- The client's answer to the beginning of a file. -/
theorem answer_header {file : List Byte} {k : ℕ} (hn : file.length < 2 ^ 63)
    (hk : k ≤ file.length) (hne : ∀ p ∈ pieces, p ≠ [])
    (hflat : pieces.flatten = (gfsSendheader gfOk file.length).written ++ file.take k)
    (hfirst : (gfsSendheader gfOk file.length).written.length ≤ (pieces.headD []).length) :
    (gfcPerform heap gfr (pieces.map .data)).map answer =
      some ⟨if k = file.length then 0 else -1, .ok, file.length, k, file.take k⟩ := by
  obtain ⟨q, ps, rfl, hbody⟩ := cut_header hflat (header_ne_nil _) hfirst
  have hlen : q.length + ps.flatten.length = k := by
    rw [← List.length_append, hbody, List.length_take, Nat.min_eq_left hk]
  rw [gfcPerform_answer heap gfr _ hne, readAnswer_ok heap gfr hn q ps (by omega), hlen, hbody]

/-- The client that has all of the announced file does not read on. -/
theorem gfcPerform_later {p n : List Byte} {ps : List (List Byte)} {ret : ℤ} {s : Client}
    (hread : reading heap p = .announced n) (hne : ∀ q ∈ p :: ps, q ≠ [])
    (h : gfcPerform heap gfr ((p :: ps).map .data) = some (ret, s))
    (hall : s.gfr.bytesOfFileReceived = s.gfr.filelength) (later : List Recv) :
    gfcPerform heap gfr ((p :: ps).map .data ++ later) = some (ret, s) := by
  obtain ⟨hp, hps⟩ := List.forall_mem_cons.mp hne
  obtain ⟨hrun, hin⟩ := gfcPerform_eq_some.mp h
  exact gfcPerform_eq_some.mpr
    ⟨perform_later hp (parse_of_announced hread).1 hps hrun hall later, hin⟩

end client

/-! ### The answers -/

/-- However the answer is cut, the client gets all of the file and reads no further, or it gets less
and its call fails: by whether the server has sent all of it. -/
def GetsFile (file : List Byte) (res : Results) (ops : List SocketOp) : Prop :=
  ∀ heap gfr pieces, Cut (gfsSendheader gfOk file.length).written ops pieces →
    (res.Complete → ∀ later, (gfcPerform heap gfr (pieces.map .data ++ later)).map answer =
      some ⟨0, .ok, file.length, file.length, file⟩) ∧
    (¬res.Complete → ∃ k < file.length, (gfcPerform heap gfr (pieces.map .data)).map answer =
      some ⟨-1, .ok, file.length, k, file.take k⟩)

/-- The client is told that there is no such file, and reads no further. -/
def GetsNotFound (ops : List SocketOp) : Prop :=
  ∀ heap gfr pieces, Cut (gfsSendheader gfFileNotFound 0).written ops pieces → ∀ later,
    (gfcPerform heap gfr (pieces.map .data ++ later)).map answer =
      some ⟨0, .fileNotFound, gfr.filelength, gfr.bytesOfFileReceived, []⟩

/-- The answer to a request for `p`: the file of an entry with this key, if there is one. -/
def Site.Answers (S : Site) (p : List Byte) (res : Results) (ops : List SocketOp) : Prop :=
  (∃ i e, S.entries[i]? = some e ∧ e.key = p ∧
    (res.On (S.fileOf i e) → GetsFile (S.fileOf i e) res ops)) ∨
    ((∀ e ∈ S.entries, e.key ≠ p) ∧ GetsNotFound ops)

section answers
variable {ops : List SocketOp} {res : Results}

/-- The loop reports no failure exactly if the file is sent completely. -/
theorem copyLoop_nonneg_iff (file : List Byte) (fileLen : ℤ) (rounds : List Round) :
    0 ≤ (copyLoop file fileLen 0 rounds).2 ↔ Completes fileLen 0 rounds := by
  by_cases hc : Completes fileLen 0 rounds
  · exact iff_of_true (copyLoop_of_complete file le_rfl hc).2 hc
  · obtain ⟨bodies, -, heq⟩ := copyLoop_of_not_complete file hc
    rw [heq]
    exact iff_of_false (by simp) hc

/-- A failure is reported behind a `close`, so nothing of what follows is sent. -/
theorem SentFrom.transmitted_append {file : List Byte} {n : ℕ} {ret : ℤ}
    (h : SentFrom file n ops ret) (behind : List SocketOp) :
    transmitted (ops ++ if ret < 0 then behind else []) = transmitted ops := by
  obtain ⟨-, hret, -⟩ | ⟨-, -, bodies, -, hops⟩ := h.result
  · rw [if_neg (by omega), List.append_nil]
  · exact transmitted_of_close (by rw [hops]; simp) _

/-- What is sent of a file of the site: its header and a beginning of it. -/
theorem sent_file {C : Content} {path : Option (List Byte)} {fildes : ℤ}
    (hget : C.contentGet path = some fildes) (hpos : 0 ≤ fildes)
    (hsmall : (C.contents fildes).length < 2 ^ 63) (hres : res.On (C.contents fildes))
    (hops : respond C res (.handler path) = some ops)
    (hpossible : ∀ op ∈ transmitted ops, op.Possible) :
    ∃ m ≤ (C.contents fildes).length, (m = (C.contents fildes).length ↔ res.Complete) ∧
      sent ops = (gfsSendheader gfOk (C.contents fildes).length).written ++
        (C.contents fildes).take m := by
  have hcopied := copyLoop_sentFrom (n := 0) (Nat.zero_le _)
    (by rw [Nat.cast_zero, sub_zero]; exact hres.rounds)
  rw [Nat.cast_zero] at hcopied
  have hnonneg := copyLoop_nonneg_iff (C.contents fildes) (C.contents fildes).length res.rounds
  have hcomplete : res.Complete ↔
      Completes (C.contents fildes).length 0 res.rounds := by rw [Results.Complete, hres.lseek]
  rw [respond, handlerGet, hget, Option.map_some, if_neg (by omega), hres.lseek, sizeT_natCast
    (by omega)] at hops
  generalize copyLoop (C.contents fildes) (C.contents fildes).length 0 res.rounds = copied
    at hcopied hnonneg hops
  have hops := Option.some.inj hops
  -- the header, then the operations of the loop; behind a failure there is a `close`
  have hsplit : ops = .header (gfsSendheader gfOk (C.contents fildes).length).written
      (res.write gfOk) :: (copied.1 ++ if copied.2 < 0 then (sendheader res gfError 0).1 else []) :=
    hops.symm
  have htransmitted : transmitted ops = .header (gfsSendheader gfOk
      (C.contents fildes).length).written (res.write gfOk) :: transmitted copied.1 := by
    rw [hsplit, ← hcopied.transmitted_append (sendheader res gfError 0).1, transmitted,
      List.takeWhile_cons, if_pos (by simp)]
    rfl
  rw [htransmitted] at hpossible
  obtain ⟨m, hm, hle, hiff⟩ := hcopied.sent fun op hop => hpossible op (List.mem_cons_of_mem _ hop)
  rw [Nat.zero_add] at hle hiff
  have hwritten : (SocketOp.header (gfsSendheader gfOk (C.contents fildes).length).written
      (res.write gfOk)).Possible := hpossible _ List.mem_cons_self
  refine ⟨m, hle, by rw [hiff, hnonneg, hcomplete], ?_⟩
  rw [sent, htransmitted, List.flatMap_cons, SocketOp.sent, show res.write gfOk = _ from hwritten,
    Int.toNat_natCast, List.take_length, ← sent, hm, List.drop_zero]

theorem getsFile {file : List Byte} (hsmall : file.length < 2 ^ 63) {m : ℕ} (hle : m ≤ file.length)
    (hiff : m = file.length ↔ res.Complete)
    (hsent : sent ops = (gfsSendheader gfOk file.length).written ++ file.take m) :
    GetsFile file res ops := by
  intro heap gfr pieces hcut
  have hflat := hcut.flatten.trans hsent
  have hanswer : (gfcPerform heap gfr (pieces.map .data)).map answer =
      some ⟨if m = file.length then 0 else -1, .ok, file.length, m, file.take m⟩ :=
    answer_header hsmall hle hcut.ne_nil hflat hcut.first
  constructor
  · intro hcomplete later
    obtain rfl := hiff.mpr hcomplete
    rw [if_pos rfl, List.take_length] at hanswer
    obtain ⟨⟨ret, s⟩, hperform, heq⟩ := Option.map_eq_some_iff.mp hanswer
    have hlength : s.gfr.filelength = file.length := congrArg Answer.filelength heq
    have hreceived : s.gfr.bytesOfFileReceived = file.length :=
      congrArg Answer.bytesOfFileReceived heq
    obtain ⟨q, ps, rfl, -⟩ := cut_header hflat (header_ne_nil _) hcut.first
    rw [gfcPerform_later (reading_ok heap q _) hcut.ne_nil hperform
      (hreceived.trans hlength.symm) later, Option.map_some, heq]
  · intro hnot
    have hne : m ≠ file.length := fun h => hnot (hiff.mp h)
    rw [if_neg hne] at hanswer
    exact ⟨m, lt_of_le_of_ne hle hne, hanswer⟩

theorem getsNotFound {behind : List SocketOp} {result : ℤ}
    (hpossible : ∀ op ∈ transmitted
      (.header (gfsSendheader gfFileNotFound 0).written result :: .close :: behind), op.Possible) :
    GetsNotFound (.header (gfsSendheader gfFileNotFound 0).written result :: .close :: behind) := by
  intro heap gfr pieces hcut later
  have hresult : (SocketOp.header (gfsSendheader gfFileNotFound 0).written result).Possible :=
    hpossible _ (by simp [transmitted])
  have hsent : sent (.header (gfsSendheader gfFileNotFound 0).written result :: .close :: behind) =
      (gfsSendheader gfFileNotFound 0).written := by
    rw [sent_cons (by simp), SocketOp.sent, show result = _ from hresult, Int.toNat_natCast,
      List.take_length]
    simp [sent, transmitted]
  have hheader : (gfsSendheader gfFileNotFound 0).written ≠ [] := List.cons_ne_nil _ _
  obtain ⟨q, ps, rfl, hnil⟩ := cut_header (hcut.flatten.trans
    (hsent.trans (List.append_nil _).symm)) hheader hcut.first
  obtain ⟨rfl, -⟩ := List.append_eq_nil_iff.mp hnil
  rw [List.append_nil]
  obtain ⟨s, hrun, hs, hwrites⟩ := (gfcPerform_status hheader gfr (ps.map .data ++ later)).1
    (parse_gfFileNotFound heap 0)
  rw [List.map_cons, List.cons_append, hrun, Option.map_some, answer, hs, hwrites]
  rfl

theorem Site.answers_respond (S : Site) {p : List Byte}
    (hops : respond S.content res (.handler (some p)) = some ops)
    (hpossible : ∀ op ∈ transmitted ops, op.Possible) : S.Answers p res ops := by
  obtain ⟨i, e, he, hkey, hget⟩ | ⟨hget, hnone⟩ := S.contentGet_key p
  · refine .inl ⟨i, e, he, hkey, fun hres => ?_⟩
    obtain ⟨m, hle, hiff, hsent⟩ := sent_file hget (S.opens i e he) (S.small _) hres hops hpossible
    exact getsFile (S.small _) hle hiff hsent
  · rw [respond_unknown res hget (by decide)] at hops
    obtain rfl := Option.some.inj hops
    exact .inr ⟨hnone, getsNotFound hpossible⟩

end answers

/-! ### The run -/

/-- The connection sends a request for `p`, in one piece. -/
structure Connection.Requests (c : Connection) (p : List Byte) : Prop where
  word : IsWord (str " \r\n") p
  whole : ∃ later, c.pieces = message p :: later

/-- A connection that has been served, with the buffer it found, and what its client gets. -/
def Site.Session (S : Site) (p : List Byte) (c : List Byte × Connection) : Prop :=
  ∃ ops buf, serve S.content c.1 c.2 = some (ops, buf) ∧
    ((∀ op ∈ transmitted ops, op.Possible) → S.Answers p c.2.results ops)

/-- Every connection so far, if its request arrived whole. -/
def Site.Sessions (S : Site) (s : ServerState) : Prop :=
  ∀ c ∈ s.served, ∀ p, c.2.Requests p → S.Session p c

section run
variable {S : Site} {s s' : ServerState} {c : Connection} {p : List Byte}

/-- A request that arrives whole and is served goes to the handler with its path. -/
theorem Connection.Requests.respond (hc : c.Requests p) {C : Content} {readData buf : List Byte}
    {ops : List SocketOp} (h : serve C readData c = some (ops, buf)) :
    Getfile.respond C c.results (.handler (some p)) = some ops := by
  obtain ⟨later, hpieces⟩ := hc.whole
  rw [serve, hpieces, serveConnection_message hc.word] at h
  split at h
  · obtain ⟨ops', hops, heq⟩ := Option.map_eq_some_iff.mp h
    rw [hops, (Prod.mk.inj heq).1]
  · cases h

/-- One turn of the loop serves a connection, or `accept` has failed. -/
theorem serverStep_served {C : Content} {a : Option Connection}
    (h : serverStep C s a = some s') :
    s'.served = s.served ∨ ∃ c r, serve C s.readData c = some r ∧
      s'.served = s.served ++ [(s.readData, c)] := by
  unfold serverStep at h
  split at h
  · cases h
  · cases a with
    | none =>
        obtain rfl := Option.some.inj h
        exact .inl rfl
    | some c =>
        dsimp only at h
        split at h
        · cases h
        · obtain ⟨r, hserve, rfl⟩ := Option.map_eq_some_iff.mp h
          exact .inr ⟨c, r, hserve, rfl⟩

theorem Site.Sessions.step {a : Option Connection} (hs : S.Sessions s)
    (h : serverStep S.content s a = some s') : S.Sessions s' := by
  intro c hc p hp
  obtain hserved | ⟨d, ⟨ops, buf⟩, hserve, hserved⟩ := serverStep_served h
  · exact hs c (hserved ▸ hc) p hp
  · rw [hserved] at hc
    obtain hc | hc := List.mem_append.mp hc
    · exact hs c hc p hp
    · obtain rfl := List.mem_singleton.mp hc
      exact ⟨ops, buf, hserve, S.answers_respond (hp.respond hserve)⟩

/-- **From the content file to the client.** In every run of the server, from any content of its
buffer and whatever the other connections send: a connection whose request arrives whole is
answered by the file of an entry with its key, of which the client gets all, or a beginning with a
failure, or by the answer that there is none. -/
theorem sessions_answered (S : Site) (readData : List Byte) (s : ServerState)
    (h : ServerReachable S.content readData s) :
    ∀ c ∈ s.served, ∀ p, c.2.Requests p → S.Session p c := by
  have hinit : S.Sessions (serverInit readData) := fun c hc => by cases hc
  exact h.invariant hinit fun _ _ _ hs _ hstep => hs.step hstep

end run

theorem plain_siteA : ∀ e ∈ [entryAX], e.Plain := by
  intro e he
  obtain rfl := List.mem_singleton.mp he
  exact plain_entryAX

theorem small_contentA : ∀ fildes, (contentA.contents fildes).length < 2 ^ 63 := by
  intro fildes
  have hlength : (contentA.contents fildes).length = 2 := rfl
  rw [hlength]
  decide

/-- One row, for `/a`. -/
def siteA : Site where
  qsort := mergeItems
  openFile i _ := i + 3
  files := contentA.contents
  entries := [entryAX]
  sorts := sorts_mergeItems
  plain := plain_siteA
  opens i _ _ := Int.natCast_nonneg (i + 3)
  few := Nat.one_lt_two_pow (Nat.succ_ne_zero 29)
  small := small_contentA

theorem requests_a : (requestA [⟨2, 2⟩]).Requests (str "/a") where
  word := by decide
  whole := ⟨[], by decide⟩

theorem serverStep_siteA : ∃ s, serverStep siteA.content (serverInit (List.replicate bufsize 0))
      (some (requestA [⟨2, 2⟩])) = some s ∧
    s.served = [(List.replicate bufsize 0, requestA [⟨2, 2⟩])] := by
  obtain ⟨fildes, hget⟩ : ∃ fildes, siteA.content.contentGet (some (str "/a")) = some fildes := by
    obtain ⟨_, e, -, -, hget⟩ | ⟨hget, -⟩ := siteA.contentGet_key (str "/a")
    · exact ⟨_, hget⟩
    · exact ⟨_, hget⟩
  obtain ⟨ops, hops⟩ : ∃ ops,
      respond siteA.content (requestA [⟨2, 2⟩]).results (.handler (some (str "/a"))) =
        some ops := by
    rw [respond, handlerGet, hget]
    exact ⟨_, rfl⟩
  have hpieces : (requestA [⟨2, 2⟩]).pieces = [message (str "/a")] := by decide
  have hserve : ∃ r, serve siteA.content (List.replicate bufsize 0) (requestA [⟨2, 2⟩]) =
      some r := by
    rw [serve, hpieces, serveConnection_message requests_a.word, if_pos (by decide +kernel),
      Option.bind_some, hops]
    exact ⟨_, rfl⟩
  obtain ⟨r, hr⟩ := hserve
  unfold serverStep serverInit
  simp only [Bool.false_eq_true, if_false, List.not_mem_nil, hr, Option.map_some, List.nil_append]
  exact ⟨_, rfl, rfl⟩

theorem sessions_answered_a :
    siteA.Session (str "/a") (List.replicate bufsize 0, requestA [⟨2, 2⟩]) := by
  obtain ⟨s, hs, hserved⟩ := serverStep_siteA
  refine sessions_answered siteA _ s (Reach.refl.step trivial hs) _ ?_ _ requests_a
  rw [hserved]
  exact List.mem_singleton_self _

end OsProjects.Getfile
