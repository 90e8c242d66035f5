import OsProjects.GetfileCuts

/-! # The tokens of a response header

`gfc_perform` tests the number of bytes read before it uses the tokens of the scheme and of the
status, and the token of the length only after `strlen`.

* `usedTokens_of_parse` — where a piece is parsed to the end, no token that is used is missing.
* `parse_refused_iff` — the pieces that are refused.
* `tokens_found_iff` — the first pieces, with a NUL behind them, for which no missing token is
  used. -/

namespace OsProjects.Getfile

/-- The results of `strtok` in a header: the scheme, behind `GETFILE` the status, and behind `OK`
the length. -/
def headerTokens (m : List Byte) : List (Option (List Byte)) :=
  let scheme := strtok (str " ") m
  let status := strtok (str " \r\n") scheme.rest
  scheme.token ::
    if scheme.token = some (str "GETFILE") then
      status.token :: if status.token = some (str "OK") then [lengthToken status.rest] else []
    else []

/-- Those that `gfc_perform` gives to `strcmp`, `strlen` or `atol`. -/
def usedTokens (heap p : List Byte) : List (Option (List Byte)) :=
  (headerTokens (p ++ heap)).take (if p.length ≤ 7 then 0 else if p.length ≤ 10 then 1 else 3)

/-- With a NUL behind the piece no missing token is used, and a piece in which one is missing is
refused as `INVALID`. -/
def TokensFound (heap p : List Byte) (gfr : Request) : Prop :=
  none ∉ usedTokens (0 :: heap) p ∧
    (none ∈ headerTokens (p ++ 0 :: heap) →
      ∃ s, headerIteration (0 :: heap) p (start gfr) = some (.returned (-1) s) ∧
        s.gfr.status = .invalid)

/-- The condition for `TokensFound`: up to the first comparison that fails or the first length that
is too short, each token has a byte. -/
def TokensPresent (p : List Byte) : Prop :=
  let scheme := strtok (str " ") (cstr p)
  let status := strtok (str " \r\n") scheme.rest
  p.length ≤ 7 ∨
    HasWord (str " ") (cstr p) ∧
      (scheme.token ≠ some (str "GETFILE") ∨ p.length ≤ 10 ∨
        HasWord (str " \r\n") scheme.rest ∧
          (status.token ≠ some (str "OK") ∨ HasWord (str " \r\n") status.rest))

/-! ### The string of the piece -/

theorem lengthToken_eq (r : List Byte) : lengthToken r = (strtok (str " \r\n") r).token := by
  have h0 : 0 ∉ str " \r\n" := by decide
  unfold lengthToken
  dsimp only
  by_cases hr : cstr r = []
  · have hnone : (strtok [] r).token = none :=
      (token_eq_none_iff (by simp) r).mpr (by simp [HasWord, hr])
    rw [hnone, Option.getD_none]
    have hword : ∀ m, cstr m = [] → (strtok (str " \r\n") m).token = none := by
      intro m hm
      exact (token_eq_none_iff h0 m).mpr (by simp [HasWord, hm])
    rw [hword r hr]
    apply hword _
    rw [(strtok_cstr (by simp) r).2, hr]
    rfl
  · rw [strtok_nil hr, Option.getD_some]
    exact (strtok_cstr h0 r).1.symm

theorem headerTokens_cstr (m : List Byte) : headerTokens m = headerTokens (cstr m) := by
  have hblank : 0 ∉ str " " := by decide
  have hcrlf : 0 ∉ str " \r\n" := by decide
  obtain ⟨hscheme, hrest⟩ := strtok_cstr hblank m
  obtain ⟨hstatus, hrest₂⟩ := strtok_cstr hcrlf (strtok (str " ") m).rest
  obtain ⟨hlength, _⟩ := strtok_cstr hcrlf (strtok (str " \r\n") (strtok (str " ") m).rest).rest
  unfold headerTokens
  simp only [lengthToken_eq]
  rw [hlength, hrest₂, hstatus, hrest, hscheme]

/-! ### The tokens that are used -/

/-- Where a piece is parsed to the end, no token that is used is missing. -/
theorem usedTokens_of_parse {heap p : List Byte} (h : parse heap p ≠ .null) :
    none ∉ usedTokens heap p := by
  unfold parse at h
  unfold usedTokens headerTokens
  by_cases h7 : p.length ≤ 7
  · simp [h7]
  simp only [if_neg h7] at h ⊢
  cases hscheme : (strtok (str " ") (p ++ heap)).token with
  | none => simp [hscheme] at h
  | some word =>
      simp only [hscheme, Option.some.injEq] at h ⊢
      by_cases h10 : p.length ≤ 10
      · simp [h10]
      simp only [if_neg h10] at h ⊢
      by_cases hword : word = str "GETFILE"
      · simp only [hword, ne_eq, not_true_eq_false, if_false, if_true] at h ⊢
        cases hstatus : (strtok (str " \r\n") (strtok (str " ") (p ++ heap)).rest).token with
        | none => simp [hstatus] at h
        | some statusText =>
            simp only [hstatus, Option.some.injEq] at h ⊢
            by_cases hok : statusText = str "OK"
            · simp only [parseStatus, hok, ne_eq, not_true_eq_false, if_false, if_true] at h ⊢
              cases hlength :
                  lengthToken (strtok (str " \r\n") (strtok (str " ") (p ++ heap)).rest).rest with
              | none => simp [hlength] at h
              | some n => simp
            · simp [hok]
      · simp [hword]

/-- The used tokens are there exactly if the piece has the bytes for them. -/
theorem usedTokens_iff (heap p : List Byte) :
    none ∉ usedTokens (0 :: heap) p ↔ TokensPresent p := by
  have hblank : 0 ∉ str " " := by decide
  have hcrlf : 0 ∉ str " \r\n" := by decide
  have hscheme := not_iff_not.mpr (token_eq_none_iff hblank (cstr p))
  have hstatus := not_iff_not.mpr (token_eq_none_iff hcrlf (strtok (str " ") (cstr p)).rest)
  have hlength := not_iff_not.mpr (token_eq_none_iff hcrlf
    (strtok (str " \r\n") (strtok (str " ") (cstr p)).rest).rest)
  rw [not_not] at hscheme hstatus hlength
  unfold usedTokens TokensPresent
  rw [headerTokens_cstr, cstr_append_zero]
  unfold headerTokens
  simp only [lengthToken_eq, ← hscheme, ← hstatus, ← hlength]
  by_cases h7 : p.length ≤ 7
  · simp [h7]
  by_cases h10 : p.length ≤ 10
  · simp [h7, h10, eq_comm]
  simp only [h7, h10, false_or]
  by_cases hget : (strtok (str " ") (cstr p)).token = some (str "GETFILE")
  · by_cases hok : (strtok (str " \r\n") (strtok (str " ") (cstr p)).rest).token = some (str "OK")
    · simp [hget, hok, eq_comm]
    · simp [hget, hok, eq_comm]
  · simp [hget, eq_comm]

/-! ### The refusals -/

/-- The piece is too short, or has another scheme or another status. -/
def Refused (heap p : List Byte) : Prop :=
  let scheme := strtok (str " ") (p ++ heap)
  let status := strtok (str " \r\n") scheme.rest
  p.length ≤ 7 ∨ ∃ word, scheme.token = some word ∧
    (word ≠ str "GETFILE" ∨ p.length ≤ 10 ∨ ∃ statusText, status.token = some statusText ∧
      statusText ∉ [str "OK", str "FILE_NOT_FOUND", str "ERROR"])

theorem parseStatus_refused_iff (word rest : List Byte) :
    parseStatus word rest = .refused ↔
      word ∉ [str "OK", str "FILE_NOT_FOUND", str "ERROR"] := by
  unfold parseStatus
  by_cases hok : word = str "OK"
  · rw [if_neg (not_not.mpr hok)]
    refine iff_of_false ?_ (by simp [hok])
    split <;> simp
  rw [if_pos hok]
  by_cases hfnf : word = str "FILE_NOT_FOUND"
  · rw [if_pos hfnf]
    exact iff_of_false (by simp) (by simp [hfnf])
  rw [if_neg hfnf]
  by_cases herr : word = str "ERROR"
  · rw [if_pos herr]
    exact iff_of_false (by simp) (by simp [herr])
  rw [if_neg herr]
  exact iff_of_true rfl (by simp [hok, hfnf, herr])

theorem parseStatus_ne_short (word rest : List Byte) : parseStatus word rest ≠ .short := by
  unfold parseStatus
  split
  · split
    · simp
    · split <;> simp
  · split <;> simp

theorem parse_refused_iff (heap p : List Byte) :
    parse heap p = .short ∨ parse heap p = .refused ↔ Refused heap p := by
  unfold parse Refused
  by_cases h7 : p.length ≤ 7
  · simp [h7]
  simp only [h7, if_false, false_or]
  cases hscheme : (strtok (str " ") (p ++ heap)).token with
  | none => simp
  | some word =>
      simp only [Option.some.injEq, exists_eq_left']
      by_cases hword : word ≠ str "GETFILE"
      · rw [if_pos hword]
        exact iff_of_true (.inr rfl) (.inl hword)
      rw [if_neg hword]
      by_cases h10 : p.length ≤ 10
      · rw [if_pos h10]
        exact iff_of_true (.inr rfl) (.inr (.inl h10))
      rw [if_neg h10]
      simp only [hword, h10, false_or]
      cases hstatus : (strtok (str " \r\n") (strtok (str " ") (p ++ heap)).rest).token with
      | none => simp
      | some statusText =>
          simp only [Option.some.injEq, exists_eq_left']
          rw [or_iff_right (parseStatus_ne_short _ _)]
          exact parseStatus_refused_iff statusText _

theorem refused_of_missing {heap p : List Byte} (hused : none ∉ usedTokens heap p)
    (hmissing : none ∈ headerTokens (p ++ heap)) : Refused heap p := by
  unfold usedTokens at hused
  by_cases h7 : p.length ≤ 7
  · exact .inl h7
  by_cases h10 : p.length ≤ 10
  · rw [if_neg h7, if_pos h10] at hused
    unfold headerTokens at hused
    cases hscheme : (strtok (str " ") (p ++ heap)).token with
    | none => simp [hscheme] at hused
    | some word => exact .inr ⟨word, hscheme, .inr (.inl h10)⟩
  · have hlen : (headerTokens (p ++ heap)).length ≤ 3 := by
      unfold headerTokens
      dsimp only
      split
      · split <;> simp
      · simp
    rw [if_neg h7, if_neg h10, List.take_of_length_le hlen] at hused
    exact absurd hmissing hused

theorem headerIteration_refused {heap p : List Byte} (h : Refused heap p) (gfr : Request) :
    ∃ s, headerIteration heap p (start gfr) = some (.returned (-1) s) ∧ s.gfr.status = .invalid ∧
      s.writes = [] := by
  obtain ⟨calls, hcalls, hiter⟩ := headerIteration_parse heap p gfr
  obtain hparse | hparse := (parse_refused_iff heap p).mpr h
  all_goals
    simp only [hparse] at hiter
    exact ⟨_, hiter, rfl, writes_of_isHeader hcalls⟩

/-- **No missing token is used** exactly if the piece has, up to the first comparison that fails or
the first length that is too short, a byte for each token. -/
theorem tokens_found_iff (heap p : List Byte) (gfr : Request) :
    TokensFound heap p gfr ↔ TokensPresent p := by
  unfold TokensFound
  rw [usedTokens_iff]
  apply and_iff_left_of_imp
  intro hpresent hmissing
  have hrefused := refused_of_missing ((usedTokens_iff heap p).mpr hpresent) hmissing
  obtain ⟨s, hpiece, hinvalid, _⟩ := headerIteration_refused hrefused gfr
  exact ⟨s, hpiece, hinvalid⟩

/-- A header without a length. -/
theorem not_tokensFound_withoutLength :
    ¬ ∀ (heap p : List Byte) (gfr : Request), 1 ≤ p.length → p.length ≤ bufsize →
      TokensFound heap p gfr := by
  intro h
  obtain ⟨hused, _⟩ := h [] (str "GETFILE OK \r\n\r\n") ⟨.ok, none, 0, 0, [], false⟩ (by decide)
    (by decide)
  exact hused (by decide)

end OsProjects.Getfile
