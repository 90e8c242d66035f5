import OsProjects.GetfileCuts
import OsProjects.GetfileServer

/-! # What the server sends is what the client receives

* `reading_ok`, `parse_gfFileNotFound`, `parse_gfError` — a first piece with a whole header of
  `gfs_sendheader` is read as that header.
* `bodyEnd_all` — no piece boundary stops a body that is not longer than announced.
* `response_roundTrip` — the answer of `gfc_perform` to a whole or shortened file, and to the
  headers without one. -/

namespace OsProjects.Getfile

/-! ### The headers, read back -/

theorem isWord_getfile : IsWord (str " ") (str "GETFILE") := by decide

theorem isWord_ok : IsWord (str " \r\n") (str "OK") := by decide

theorem isWord_fileNotFound : IsWord (str " \r\n") (str "FILE_NOT_FOUND") := by decide

theorem isWord_error : IsWord (str " \r\n") (str "ERROR") := by decide

/-- Digits are a word, whatever the delimiters if these are not digits. -/
theorem isWord_digits {delims ds : List Byte} (h : delims.all fun b => !isDigit b) (hne : ds ≠ [])
    (hds : ∀ b ∈ ds, isDigit b = true) : IsWord delims ds := by
  refine ⟨hne, fun b hb => ?_⟩
  have hd := hds b hb
  have h0 : b ≠ 0 := by
    rintro rfl
    cases hd
  have hmem : b ∉ delims := by
    intro hb'
    have hdelim := List.all_eq_true.mp h b hb'
    rw [hd] at hdelim
    cases hdelim
  simp [inWord, h0, hmem]

theorem isWord_decimal {delims : List Byte} (h : delims.all fun b => !isDigit b) (n : ℕ) :
    IsWord delims (decimal n) :=
  isWord_digits h (decimal_ne_nil n) fun _ hb => isDigit_of_mem_decimal hb

theorem parse_status {w : List Byte} (hw : IsWord (str " \r\n") w) (heap r : List Byte) {d : Byte}
    (hd : d ∈ str " \r\n") (hlen : 2 ≤ w.length + r.length) :
    parse heap (str "GETFILE" ++ 32 :: (w ++ d :: r)) = parseStatus w (r ++ heap) := by
  have hd0 : d ≠ 0 := by
    rintro rfl
    exact absurd hd (by decide)
  have hscheme : strtok (str " ") ((str "GETFILE" ++ 32 :: (w ++ d :: r)) ++ heap) =
      ⟨some (str "GETFILE"), str "GETFILE" ++ [0], w ++ d :: (r ++ heap)⟩ := by
    have h := strtok_delim isWord_getfile (w ++ d :: (r ++ heap))
      (show (32 : Byte) ∈ str " " by decide) (by decide)
    simpa using h
  have hstatus := strtok_delim hw (r ++ heap) hd hd0
  have hl : (str "GETFILE" ++ 32 :: (w ++ d :: r)).length = w.length + r.length + 9 := by
    have h7 : (str "GETFILE").length = 7 := rfl
    simp only [List.length_append, List.length_cons, h7]
    omega
  unfold parse
  rw [if_neg (by omega)]
  simp only [hscheme, hstatus]
  rw [if_neg (not_not.mpr rfl), if_neg (by omega)]

theorem lengthToken_word {w : List Byte} (hw : IsWord (str " \r\n") w) (r : List Byte) {d : Byte}
    (hd : d ∈ str " \r\n") (h0 : d ≠ 0) : lengthToken (w ++ d :: r) = some w := by
  have hc : cstr (w ++ d :: r) = w ++ d :: cstr r := by
    rw [cstr_append_of_notMem hw.zero_notMem]
    simp [cstr, h0]
  have hne : cstr (w ++ d :: r) ≠ [] := by
    rw [hc]
    simp
  unfold lengthToken
  simp only [strtok_nil hne, Option.getD_some, hc, strtok_delim hw (cstr r) hd h0]

theorem reading_announced {w : List Byte} (hw : IsWord (str " \r\n") w) (heap q : List Byte) :
    reading heap (str "GETFILE OK " ++ w ++ str "\r\n\r\n" ++ q) = .announced w := by
  have hp : str "GETFILE OK " ++ w ++ str "\r\n\r\n" ++ q =
      str "GETFILE" ++ 32 :: (str "OK" ++ 32 :: (w ++ 13 :: (10 :: 13 :: 10 :: q))) := by
    simp [str]
  have hlen : ¬(str "GETFILE OK " ++ w ++ str "\r\n\r\n" ++ q).length < w.length + 15 := by
    rw [hp]
    simp only [List.length_append, List.length_cons, show (str "GETFILE").length = 7 from rfl,
      show (str "OK").length = 2 from rfl]
    omega
  rw [hp] at hlen ⊢
  rw [reading, parse_status isWord_ok heap _ (by decide)
    (by simp [show (str "OK").length = 2 from rfl]), parseStatus, if_neg (not_not.mpr rfl),
    List.append_assoc, List.cons_append, lengthToken_word hw _ (by decide) (by decide)]
  simp only [Parsed.reading, if_neg hlen]

/-- The header of a file of `n` bytes. -/
theorem reading_ok (heap q : List Byte) (n : ℕ) :
    reading heap ((gfsSendheader gfOk n).written ++ q) = .announced (decimal n) := by
  have hp : (gfsSendheader gfOk n).written =
      str "GETFILE OK " ++ decimal n ++ str "\r\n\r\n" := by
    simp [gfsSendheader, gfOk, gfError, gfFileNotFound]
  rw [hp]
  exact reading_announced (isWord_decimal (by decide) n) heap q

theorem parse_gfFileNotFound (heap : List Byte) (n : ℕ) :
    parse heap (gfsSendheader gfFileNotFound n).written = .fileNotFound := by
  have hp : (gfsSendheader gfFileNotFound n).written =
      str "GETFILE" ++ 32 :: (str "FILE_NOT_FOUND" ++ 32 :: (str "\r\n\r\n" ++ [0])) := rfl
  rw [hp, parse_status isWord_fileNotFound heap _ (by decide) (by decide)]
  rfl

theorem parse_gfError (heap : List Byte) (n : ℕ) :
    parse heap (gfsSendheader gfError n).written = .error := by
  have hp : (gfsSendheader gfError n).written =
      str "GETFILE" ++ 32 :: (str "ERROR" ++ 32 :: (str "\r\n\r\n" ++ [0])) := rfl
  rw [hp, parse_status isWord_error heap _ (by decide) (by decide)]
  rfl

/-! ### The body -/

/-- No boundary before the end stops a body that is not longer than announced. -/
theorem bodyEnd_all {N : ℕ} (hN : N < 2 ^ 64) (ps : List (List Byte)) (d : ℕ)
    (h : d + ps.flatten.length ≤ N) : bodyEnd N d ps = d + ps.flatten.length := by
  induction ps generalizing d with
  | nil => rfl
  | cons p ps ih =>
      have hlen : (p :: ps).flatten.length = p.length + ps.flatten.length := by simp
      have hd : d % 2 ^ 64 = d := Nat.mod_eq_of_lt (by omega)
      unfold bodyEnd
      rw [hd]
      by_cases hdN : d = N
      · rw [if_pos hdN]
        omega
      · rw [if_neg hdN, ih (d + p.length) (by omega)]
        omega

theorem header_length (n : ℕ) :
    (gfsSendheader gfOk n).written.length = (decimal n).length + 15 := by
  have h11 : (str "GETFILE OK ").length = 11 := rfl
  have h4 : (str "\r\n\r\n").length = 4 := rfl
  simp only [gfsSendheader, gfOk, gfError, gfFileNotFound]
  simp only [show ¬(200 : ℤ) = 500 by decide, show ¬(200 : ℤ) = 400 by decide, if_false,
    List.length_append, h11, h4]
  omega

/-- A first piece with the whole header and the beginning of the content. -/
theorem readAnswer_ok (heap : List Byte) (gfr : Request) {n : ℕ} (hn : n < 2 ^ 63)
    (q : List Byte) (ps : List (List Byte)) (hk : q.length + ps.flatten.length ≤ n) :
    readAnswer heap gfr (((gfsSendheader gfOk n).written ++ q) :: ps) =
      some ⟨if q.length + ps.flatten.length = n then 0 else -1, .ok, n,
        q.length + ps.flatten.length, q ++ ps.flatten⟩ := by
  have hN : sizeT (atol (decimal n)) = n := by
    rw [atol_decimal hn, sizeT_natCast (by omega)]
  have hend : bodyLength (decimal n) ((gfsSendheader gfOk n).written ++ q) ps =
      q.length + ps.flatten.length := by
    unfold bodyLength
    rw [hN, List.length_append, header_length, Nat.add_sub_cancel_left]
    exact bodyEnd_all (by omega) ps _ hk
  have hdrop : ((((gfsSendheader gfOk n).written ++ q) :: ps).flatten).drop
      ((decimal n).length + 15) = q ++ ps.flatten := by
    rw [List.flatten_cons, List.append_assoc, ← header_length, List.drop_left]
  have hmod : (q.length + ps.flatten.length) % 2 ^ 64 = q.length + ps.flatten.length :=
    Nat.mod_eq_of_lt (by omega)
  have htake : (q ++ ps.flatten).take (q.length + ps.flatten.length) = q ++ ps.flatten := by
    rw [← List.length_append, List.take_length]
  unfold readAnswer
  simp only [reading_ok]
  rw [hend, hdrop, hN]
  unfold okAnswer
  rw [hmod, htake]
  by_cases heq : q.length + ps.flatten.length = n
  · rw [if_pos heq, if_neg (by omega)]
  · rw [if_neg heq, if_pos (by omega)]

/-- A status without a file ends the run before anything is written. -/
theorem gfcPerform_status {heap p : List Byte} (hp : p ≠ []) (gfr : Request) (rs : List Recv) :
    (parse heap p = .fileNotFound →
      ∃ s, gfcPerform heap gfr (.data p :: rs) = some (0, s) ∧
        s.gfr = gfr.setStatus (str "FILE_NOT_FOUND") ∧ s.writes = []) ∧
      (parse heap p = .error →
        ∃ s, gfcPerform heap gfr (.data p :: rs) = some (0, s) ∧
          s.gfr = gfr.setStatus (str "ERROR") ∧ s.writes = []) := by
  obtain ⟨calls, hcalls, hiter⟩ := headerIteration_parse heap p gfr
  constructor
  all_goals
    intro h
    simp only [h] at hiter
    exact ⟨_, gfcPerform_returned hp hcalls hiter rs, rfl, writes_of_isHeader hcalls⟩

/-- The client gets what the server sends: of a file the first `k` bytes, with the return value
that says whether it is whole; of a header without a file its status. -/
theorem response_roundTrip (heap : List Byte) (gfr : Request) :
    (∀ (body : List Byte) (k : ℕ) (pieces : List (List Byte)),
      body.length < 2 ^ 63 → k ≤ body.length → (∀ p ∈ pieces, p ≠ []) →
      pieces.flatten = (gfsSendheader gfOk body.length).written ++ body.take k →
      (gfsSendheader gfOk body.length).written.length ≤ (pieces.headD []).length →
      (gfcPerform heap gfr (pieces.map .data)).map answer =
        some ⟨if k = body.length then 0 else -1, .ok, body.length, k, body.take k⟩) ∧
    (∀ n, ∃ s, gfcPerform heap gfr [.data (gfsSendheader gfFileNotFound n).written] = some (0, s) ∧
      s.gfr.status = .fileNotFound ∧ s.writes = []) ∧
    ∀ n, ∃ s, gfcPerform heap gfr [.data (gfsSendheader gfError n).written] = some (0, s) ∧
      s.gfr.status = .error ∧ s.writes = [] := by
  refine ⟨?_, ?_, ?_⟩
  · intro body k pieces hn hk hpieces hflat hfirst
    rw [gfcPerform_answer heap gfr pieces hpieces]
    cases pieces with
    | nil =>
        rw [header_length] at hfirst
        simp at hfirst
    | cons p ps =>
        rw [List.flatten_cons] at hflat
        have hheader : (gfsSendheader gfOk body.length).written <+: p ++ ps.flatten := by
          rw [hflat]
          exact List.prefix_append _ _
        obtain ⟨q, rfl⟩ := List.prefix_of_prefix_length_le hheader (List.prefix_append p _) hfirst
        rw [List.append_assoc, List.append_cancel_left_eq] at hflat
        have hlen : q.length + ps.flatten.length = k := by
          rw [← List.length_append, hflat, List.length_take, Nat.min_eq_left hk]
        rw [readAnswer_ok heap gfr hn q ps (by omega), hlen, hflat]
  · intro n
    obtain ⟨s, hrun, hs, hwrites⟩ := (gfcPerform_status (List.cons_ne_nil _ _) gfr []).1
      (parse_gfFileNotFound heap n)
    exact ⟨s, hrun, congrArg Request.status hs, hwrites⟩
  · intro n
    obtain ⟨s, hrun, hs, hwrites⟩ := (gfcPerform_status (List.cons_ne_nil _ _) gfr []).2
      (parse_gfError heap n)
    exact ⟨s, hrun, congrArg Request.status hs, hwrites⟩

theorem response_roundTrip_twoOfThree :
    (gfcPerform [7] ⟨.error, none, 9, 9, [], false⟩
      ([str "GETFILE OK 3\r\n\r\na", str "b"].map .data)).map answer =
        some ⟨-1, .ok, 3, 2, str "ab"⟩ :=
  (response_roundTrip [7] ⟨.error, none, 9, 9, [], false⟩).1 (str "abc") 2
    [str "GETFILE OK 3\r\n\r\na", str "b"] (by decide) (by decide) (by decide) (by decide)
    (by decide)

end OsProjects.Getfile
