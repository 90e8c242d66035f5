import OsProjects.Decimal
import Mathlib.Data.List.TakeWhile

/-! # C strings in memory

Memory from a pointer on is a list of bytes; the string there ends at the first NUL.  Behind the
end of the list stands a NUL that belongs to nobody.

* `strtok` gives the token, the bytes it leaves behind (the delimiter that ended the token
  overwritten by a NUL) and the memory from the saved pointer on, from which the next call with a
  null pointer goes on.
* `atol` skips white space, takes a sign and digits, and stays within `long` (64 bits). -/

namespace OsProjects

/-- The string at a pointer. -/
def cstr (m : List Byte) : List Byte := m.takeWhile fun b => b ≠ 0

/-- What `strtok` returns and leaves behind. -/
structure Tok where
  token : Option (List Byte)
  passed : List Byte
  rest : List Byte
deriving DecidableEq, Repr

/-- The byte belongs to a token. -/
def inWord (delims : List Byte) (b : Byte) : Bool := b ≠ 0 && b ∉ delims

def strtok (delims m : List Byte) : Tok :=
  let skipped := m.takeWhile fun b => b ∈ delims
  let m' := m.dropWhile fun b => b ∈ delims
  let w := m'.takeWhile (inWord delims)
  match w with
  | [] => ⟨none, skipped, m'⟩
  | _ :: _ =>
      match m'.dropWhile (inWord delims) with
      | [] => ⟨some w, skipped ++ w, []⟩
      | d :: r => if d = 0 then ⟨some w, skipped ++ w, d :: r⟩ else ⟨some w, skipped ++ w ++ [0], r⟩

/-- `isspace` of the C locale. -/
def isSpace (b : Byte) : Bool := b = 32 || (9 ≤ b && b ≤ 13)

def atol (s : List Byte) : ℤ :=
  match s.dropWhile isSpace with
  | 45 :: ds => max (-(digitsValue (ds.takeWhile isDigit) : ℤ)) (-2 ^ 63)
  | 43 :: ds => min (digitsValue (ds.takeWhile isDigit) : ℤ) (2 ^ 63 - 1)
  | ds => min (digitsValue (ds.takeWhile isDigit) : ℤ) (2 ^ 63 - 1)

/-! ### Tokens -/

/-- A byte that ends the scan ends it whatever stands behind. -/
theorem scan_append {P : Byte → Bool} (s t : List Byte) (ht : ∀ b ∈ t.head?, P b = false) :
    (s ++ t).takeWhile P = s.takeWhile P ∧ (s ++ t).dropWhile P = s.dropWhile P ++ t := by
  induction s with
  | nil =>
      cases t with
      | nil => exact ⟨rfl, rfl⟩
      | cons b t => simp [ht b rfl]
  | cons b s ih =>
      cases hb : P b with
      | false => simp [hb]
      | true => simp [hb, ih.1, ih.2]

/-- `w` is a word: not empty, without NUL and delimiters. -/
structure IsWord (delims w : List Byte) : Prop where
  ne_nil : w ≠ []
  mem : ∀ b ∈ w, inWord delims b = true

instance (delims w : List Byte) : Decidable (IsWord delims w) :=
  decidable_of_iff (w ≠ [] ∧ w.all (inWord delims) = true)
    ⟨fun h => ⟨h.1, List.all_eq_true.mp h.2⟩, fun h => ⟨h.ne_nil, List.all_eq_true.mpr h.mem⟩⟩

section tokens
variable {delims w : List Byte} {d : Byte}

theorem IsWord.takeWhile_append (hw : IsWord delims w) (r : List Byte)
    (hr : ∀ b ∈ r.head?, inWord delims b = false) : (w ++ r).takeWhile (inWord delims) = w := by
  rw [(scan_append w r hr).1, List.takeWhile_eq_self_iff.mpr hw.mem]

theorem IsWord.dropWhile_append (hw : IsWord delims w) (r : List Byte)
    (hr : ∀ b ∈ r.head?, inWord delims b = false) : (w ++ r).dropWhile (inWord delims) = r := by
  rw [(scan_append w r hr).2, List.dropWhile_eq_nil_iff.mpr hw.mem, List.nil_append]

theorem IsWord.zero_notMem (hw : IsWord delims w) : 0 ∉ w := fun h => by
  simpa [inWord] using hw.mem 0 h

theorem IsWord.skip (hw : IsWord delims w) (r : List Byte) :
    (w ++ r).takeWhile (fun b => b ∈ delims) = [] ∧
      (w ++ r).dropWhile (fun b => b ∈ delims) = w ++ r := by
  cases w with
  | nil => exact absurd rfl hw.ne_nil
  | cons b w =>
      have hb := hw.mem b List.mem_cons_self
      simp only [inWord, Bool.and_eq_true, decide_eq_true_eq] at hb
      simp [hb.2]

/-- A word that a delimiter ends: the delimiter becomes a NUL. -/
theorem strtok_delim (hw : IsWord delims w) (r : List Byte) (hd : d ∈ delims) (h0 : d ≠ 0) :
    strtok delims (w ++ d :: r) = ⟨some w, w ++ [0], r⟩ := by
  have hin : ∀ b ∈ (d :: r).head?, inWord delims b = false := by
    intro b hb
    obtain rfl : d = b := by simpa using hb
    simp [inWord, hd]
  obtain ⟨hs₁, hs₂⟩ := hw.skip (d :: r)
  have ht := hw.takeWhile_append (d :: r) hin
  have hdr := hw.dropWhile_append (d :: r) hin
  unfold strtok
  simp only [hs₁, hs₂, ht, hdr]
  cases w with
  | nil => exact absurd rfl hw.ne_nil
  | cons b w => simp [h0]

theorem strtok_last (hw : IsWord delims w) (r : List Byte) (hr : ∀ b ∈ r.head?, b = 0) :
    strtok delims (w ++ r) = ⟨some w, w, r⟩ := by
  have hin : ∀ b ∈ r.head?, inWord delims b = false := by
    intro b hb
    simp [inWord, hr b hb]
  obtain ⟨hs₁, hs₂⟩ := hw.skip r
  have ht := hw.takeWhile_append r hin
  have hdr := hw.dropWhile_append r hin
  unfold strtok
  simp only [hs₁, hs₂, ht, hdr]
  cases w with
  | nil => exact absurd rfl hw.ne_nil
  | cons b w =>
      cases r with
      | nil => simp
      | cons c r =>
          obtain rfl := hr c rfl
          simp

theorem strtok_end (h0 : 0 ∉ delims) {r : List Byte} (hr : ∀ b ∈ r.head?, b = 0) :
    strtok delims r = ⟨none, [], r⟩ := by
  unfold strtok
  cases r with
  | nil => rfl
  | cons b r =>
      obtain rfl : b = 0 := hr b rfl
      simp [h0, inWord]

/-- The bytes that become the token. -/
def word (delims m : List Byte) : List Byte :=
  (m.dropWhile fun b => b ∈ delims).takeWhile (inWord delims)

theorem strtok_token (delims m : List Byte) :
    (strtok delims m).token = if word delims m = [] then none else some (word delims m) := by
  unfold strtok word
  cases hw : (m.dropWhile fun b => decide (b ∈ delims)).takeWhile (inWord delims) with
  | nil => simp only [hw, if_true]
  | cons b w =>
      simp only [hw, if_neg (List.cons_ne_nil b w)]
      split
      · rfl
      · split <;> rfl

theorem strtok_skip {s : List Byte} (hs : ∀ b ∈ s, b ∈ delims) (m : List Byte) :
    (strtok delims (s ++ m)).token = (strtok delims m).token ∧
      (strtok delims (s ++ m)).rest = (strtok delims m).rest := by
  have hdrop : (s ++ m).dropWhile (fun b => decide (b ∈ delims)) =
      m.dropWhile fun b => decide (b ∈ delims) :=
    List.dropWhile_append_of_pos fun b hb => decide_eq_true (hs b hb)
  unfold strtok
  simp only [hdrop]
  cases hw : (m.dropWhile fun b => decide (b ∈ delims)).takeWhile (inWord delims) with
  | nil => exact ⟨rfl, rfl⟩
  | cons b w =>
      dsimp only
      split
      · exact ⟨rfl, rfl⟩
      · split <;> exact ⟨rfl, rfl⟩

/-- What a call of `strtok` finds in a string: delimiters only, a word that ends the string, or a
word that a delimiter ends. -/
theorem strtok_cases (delims : List Byte) {m : List Byte} (h0 : 0 ∉ m) :
    ((∀ b ∈ m, b ∈ delims) ∧ (strtok delims m).token = none ∧ (strtok delims m).rest = []) ∨
    (∃ s w, m = s ++ w ∧ (∀ b ∈ s, b ∈ delims) ∧ IsWord delims w ∧
      (strtok delims m).token = some w ∧ (strtok delims m).rest = []) ∨
    ∃ s w d r, m = s ++ (w ++ d :: r) ∧ (∀ b ∈ s, b ∈ delims) ∧ IsWord delims w ∧ d ∈ delims ∧
      (strtok delims m).token = some w ∧ (strtok delims m).rest = r := by
  have hm : m = m.takeWhile (fun b => decide (b ∈ delims)) ++
      m.dropWhile fun b => decide (b ∈ delims) := List.takeWhile_append_dropWhile.symm
  have hs : ∀ b ∈ m.takeWhile (fun b => decide (b ∈ delims)), b ∈ delims := by
    intro b hb
    simpa using List.mem_takeWhile_imp hb
  have hhead := List.head?_dropWhile_not (fun b : Byte => decide (b ∈ delims)) m
  generalize m.takeWhile (fun b => decide (b ∈ delims)) = s at hm hs
  generalize m.dropWhile (fun b => decide (b ∈ delims)) = m' at hm hhead
  subst hm
  have h0' : 0 ∉ m' := fun h => h0 (List.mem_append_right s h)
  obtain ⟨htok, hrest⟩ := strtok_skip hs m'
  rw [htok, hrest]
  cases m' with
  | nil => exact .inl ⟨by simpa using hs, by simp [strtok], by simp [strtok]⟩
  | cons b m' =>
      have hb : inWord delims b = true := by
        have hne : b ≠ 0 := fun h => h0' (by rw [h]; exact List.mem_cons_self)
        have hnot : b ∉ delims := by simpa using hhead
        simp [inWord, hne, hnot]
      have hword : b :: m' = (b :: m').takeWhile (inWord delims) ++
          (b :: m').dropWhile (inWord delims) := List.takeWhile_append_dropWhile.symm
      have hw : IsWord delims ((b :: m').takeWhile (inWord delims)) :=
        ⟨by simp [hb], fun c hc => List.mem_takeWhile_imp hc⟩
      have hhead' := List.head?_dropWhile_not (inWord delims) (b :: m')
      generalize (b :: m').takeWhile (inWord delims) = w at hword hw
      generalize (b :: m').dropWhile (inWord delims) = r at hword hhead'
      rw [hword] at h0' ⊢
      cases r with
      | nil =>
          have hlast := strtok_last hw [] (by simp)
          rw [hlast]
          exact .inr (.inl ⟨s, w, by simp, hs, hw, rfl, rfl⟩)
      | cons d r =>
          have hd0 : d ≠ 0 := fun h => h0' (by rw [h]; simp)
          have hd : d ∈ delims := by simpa [inWord, hd0] using hhead'
          rw [strtok_delim hw r hd hd0]
          exact .inr (.inr ⟨s, w, d, r, rfl, hs, hw, hd, rfl, rfl⟩)

theorem rest_notMem {m : List Byte} (h0 : 0 ∉ m) : 0 ∉ (strtok delims m).rest := by
  rcases strtok_cases delims h0 with ⟨_, _, hr⟩ | ⟨_, _, _, _, _, _, hr⟩ |
    ⟨s, w, d, r, hm, _, _, _, _, hr⟩
  · simp [hr]
  · simp [hr]
  · rw [hr]
    intro h
    exact h0 (by rw [hm]; simp [h])

/-- A word behind delimiters that the end or a delimiter ends. -/
theorem strtok_parts {s w r : List Byte} (h0 : 0 ∉ delims) (hs : ∀ b ∈ s, b ∈ delims) (hw : IsWord delims w)
    (hr : ∀ b ∈ r.head?, b ∈ delims) :
    (strtok delims (s ++ (w ++ r))).token = some w ∧
      (strtok delims (s ++ (w ++ r))).rest = r.tail := by
  obtain ⟨htoken, hrest⟩ := strtok_skip hs (w ++ r)
  rw [htoken, hrest]
  cases r with
  | nil =>
      rw [strtok_last hw [] (by simp)]
      exact ⟨rfl, rfl⟩
  | cons d r =>
      have hd := hr d rfl
      have hd0 : d ≠ 0 := fun h => h0 (h ▸ hd)
      rw [strtok_delim hw r hd hd0]
      exact ⟨rfl, rfl⟩

theorem parts_of_token {m w : List Byte} (h0 : 0 ∉ m) (h : (strtok delims m).token = some w) :
    ∃ s r, m = s ++ (w ++ r) ∧ (∀ b ∈ s, b ∈ delims) ∧ IsWord delims w ∧
      (∀ b ∈ r.head?, b ∈ delims) ∧ (strtok delims m).rest = r.tail := by
  obtain ⟨_, hnone, _⟩ | ⟨s, w', hm, hs, hw, htoken, hrest⟩ |
    ⟨s, w', d, r, hm, hs, hw, hd, htoken, hrest⟩ := strtok_cases delims h0
  · rw [hnone] at h
    cases h
  · obtain rfl := Option.some.inj (htoken.symm.trans h)
    exact ⟨s, [], by rw [hm, List.append_nil], hs, hw, by simp, hrest⟩
  · obtain rfl := Option.some.inj (htoken.symm.trans h)
    exact ⟨s, d :: r, hm, hs, hw, by simpa using hd, hrest⟩

/-- A string with two words: a delimiter stands behind the first one. -/
theorem parts_of_token_rest {m w : List Byte} (h0 : 0 ∉ m) (h : (strtok delims m).token = some w)
    (hrest : (strtok delims m).rest ≠ []) :
    ∃ s d, m = s ++ (w ++ d :: (strtok delims m).rest) ∧ (∀ b ∈ s, b ∈ delims) ∧ d ∈ delims := by
  obtain ⟨s, r, hm, hs, _, hr, htail⟩ := parts_of_token h0 h
  rw [htail] at hrest ⊢
  cases r with
  | nil => exact absurd rfl hrest
  | cons d r => exact ⟨s, d, hm, hs, hr d rfl⟩

/-- A token that a delimiter ended does not change when more follows. -/
theorem strtok_append_rest {m : List Byte} (h0 : 0 ∉ m) (hr : (strtok delims m).rest ≠ [])
    (t : List Byte) :
    (strtok delims (m ++ t)).token = (strtok delims m).token ∧
      (strtok delims (m ++ t)).rest = (strtok delims m).rest ++ t := by
  rcases strtok_cases delims h0 with ⟨_, _, hnil⟩ | ⟨_, _, _, _, _, _, hnil⟩ |
    ⟨s, w, d, r, hm, hs, hw, hd, htok, hrest⟩
  · exact absurd hnil hr
  · exact absurd hnil hr
  · have hd0 : d ≠ 0 := fun h => h0 (by rw [hm, h]; simp)
    rw [htok, hrest, hm, List.append_assoc, List.append_assoc, List.cons_append]
    obtain ⟨htok', hrest'⟩ := strtok_skip hs (w ++ d :: (r ++ t))
    rw [htok', hrest', strtok_delim hw (r ++ t) hd hd0]
    exact ⟨rfl, rfl⟩

theorem token_append_ne_none {m : List Byte} (h0 : 0 ∉ m) (ht : (strtok delims m).token ≠ none)
    (t : List Byte) : (strtok delims (m ++ t)).token ≠ none := by
  have hfound : ∀ {s w r : List Byte}, (∀ b ∈ s, b ∈ delims) → IsWord delims w →
      (strtok delims (s ++ (w ++ r))).token ≠ none := by
    intro s w r hs hw
    rw [(strtok_skip hs (w ++ r)).1, strtok_token, word]
    obtain ⟨_, hdrop⟩ := hw.skip r
    rw [hdrop]
    cases w with
    | nil => exact absurd rfl hw.ne_nil
    | cons b w => simp [hw.mem b List.mem_cons_self]
  rcases strtok_cases delims h0 with ⟨_, hnone, _⟩ | ⟨s, w, hm, hs, hw, _, _⟩ |
    ⟨s, w, d, r, hm, hs, hw, _, _, _⟩
  · exact absurd hnone ht
  · rw [hm, List.append_assoc]
    exact hfound hs hw
  · rw [hm, List.append_assoc, List.append_assoc]
    exact hfound hs hw

/-- Without delimiters the token is the whole string. -/
theorem strtok_nil {m : List Byte} (hm : cstr m ≠ []) : (strtok [] m).token = some (cstr m) := by
  have hin : inWord [] = fun b : Byte => decide (b ≠ 0) := by
    funext b
    simp [inWord]
  have hskip : m.dropWhile (fun b => decide (b ∈ ([] : List Byte))) = m := by
    cases m <;> simp
  have hword : word [] m = cstr m := by
    unfold word
    rw [hin, hskip]
    rfl
  rw [strtok_token, hword, if_neg hm]

/-! ### Behind the string -/

theorem mem_cstr {m : List Byte} {b : Byte} (hb : b ∈ cstr m) : b ≠ 0 := by
  have h := List.mem_takeWhile_imp hb
  simpa using h

theorem cstr_of_notMem {s : List Byte} (hs : 0 ∉ s) : cstr s = s := by
  refine List.takeWhile_eq_self_iff.mpr fun b hb => decide_eq_true ?_
  rintro rfl
  exact hs hb

theorem cstr_append_of_notMem {s : List Byte} (hs : 0 ∉ s) (t : List Byte) :
    cstr (s ++ t) = s ++ cstr t := by
  refine List.takeWhile_append_of_pos fun b hb => decide_eq_true ?_
  rintro rfl
  exact hs hb

/-- Without a NUL inside and with one behind it, a stretch of memory is the string. -/
theorem cstr_append {s t : List Byte} (hs : 0 ∉ s) (ht : ∀ b ∈ t.head?, b = 0) :
    cstr (s ++ t) = s := by
  rw [cstr_append_of_notMem hs]
  cases t with
  | nil => simp [cstr]
  | cons b t => simp [cstr, ht b rfl]

/-- Memory is its string and what the NUL begins. -/
theorem cstr_split (m : List Byte) : ∃ t, m = cstr m ++ t ∧ ∀ b ∈ t.head?, b = 0 := by
  refine ⟨m.dropWhile fun b => b ≠ 0, List.takeWhile_append_dropWhile.symm, fun b hb => ?_⟩
  have h := List.head?_dropWhile_not (fun b : Byte => decide (b ≠ 0)) m
  rw [Option.mem_def.mp hb] at h
  simpa using h

/-- What stands behind the NUL neither joins the token nor the string that is left. -/
theorem strtok_append (h0 : 0 ∉ delims) {s t : List Byte} (hs : 0 ∉ s)
    (ht : ∀ b ∈ t.head?, b = 0) :
    (strtok delims (s ++ t)).token = (strtok delims s).token ∧
      cstr (strtok delims (s ++ t)).rest = (strtok delims s).rest := by
  have hdelim : ∀ b ∈ t.head?, decide (b ∈ delims) = false := by
    intro b hb
    rw [ht b hb]
    exact decide_eq_false h0
  have hin : ∀ b ∈ t.head?, inWord delims b = false := by
    intro b hb
    simp [inWord, ht b hb]
  have hskip := scan_append s t hdelim
  generalize hs' : s.dropWhile (fun b => decide (b ∈ delims)) = s' at hskip
  have hsub : ∀ b ∈ s', b ≠ 0 := by
    rintro b hb rfl
    rw [← hs'] at hb
    exact hs ((List.dropWhile_sublist _).mem hb)
  have hword := scan_append s' t hin
  unfold strtok
  simp only [hskip.2, hword.1, hword.2, hs']
  cases s'.takeWhile (inWord delims) with
  | nil => exact ⟨rfl, cstr_append (fun h => hsub 0 h rfl) ht⟩
  | cons b w =>
      cases hd : s'.dropWhile (inWord delims) with
      | nil =>
          cases t with
          | nil => exact ⟨rfl, rfl⟩
          | cons c t =>
              obtain rfl : c = 0 := ht c rfl
              exact ⟨rfl, rfl⟩
      | cons c r =>
          have hr : ∀ b ∈ c :: r, b ≠ 0 := by
            intro b hb
            rw [← hd] at hb
            exact hsub b ((List.dropWhile_sublist _).mem hb)
          have hc : c ≠ 0 := hr c List.mem_cons_self
          simp only [List.cons_append, if_neg hc, true_and]
          exact cstr_append (fun h => hr 0 (List.mem_cons_of_mem c h) rfl) ht

theorem strtok_cstr (h0 : 0 ∉ delims) (m : List Byte) :
    (strtok delims m).token = (strtok delims (cstr m)).token ∧
      cstr (strtok delims m).rest = (strtok delims (cstr m)).rest := by
  obtain ⟨t, hm, ht⟩ := cstr_split m
  have hs : 0 ∉ cstr m := fun h => mem_cstr h rfl
  have h := strtok_append h0 hs ht
  rwa [← hm] at h

/-- The string has a byte that is no delimiter. -/
def HasWord (delims m : List Byte) : Prop := ∃ b ∈ cstr m, b ∉ delims

instance (delims m : List Byte) : Decidable (HasWord delims m) :=
  inferInstanceAs (Decidable (∃ b ∈ cstr m, b ∉ delims))

theorem token_eq_none_iff (h0 : 0 ∉ delims) (m : List Byte) :
    (strtok delims m).token = none ↔ ¬HasWord delims m := by
  have hword : ∀ {s w r : List Byte}, cstr m = s ++ (w ++ r) → IsWord delims w →
      HasWord delims m := by
    intro s w r hm hw
    obtain ⟨b, hb⟩ := List.exists_mem_of_ne_nil w hw.ne_nil
    have hin := hw.mem b hb
    simp only [inWord, Bool.and_eq_true, decide_eq_true_eq] at hin
    exact ⟨b, by rw [hm]; simp [hb], hin.2⟩
  rw [(strtok_cstr h0 m).1]
  rcases strtok_cases delims (fun h => mem_cstr h rfl : 0 ∉ cstr m) with ⟨hall, htok, _⟩ |
    ⟨s, w, hm, _, hw, htok, _⟩ | ⟨s, w, d, r, hm, _, hw, _, htok, _⟩
  · apply iff_of_true htok
    rintro ⟨b, hb, hnot⟩
    exact hnot (hall b hb)
  · refine iff_of_false (by rw [htok]; simp) (not_not.mpr ?_)
    have hm' : cstr m = s ++ (w ++ []) := by rw [hm, List.append_nil]
    exact hword hm' hw
  · exact iff_of_false (by rw [htok]; simp) (not_not.mpr (hword hm hw))

theorem cstr_append_zero (s t : List Byte) : cstr (s ++ 0 :: t) = cstr s :=
  (scan_append s (0 :: t) (by simp)).1

end tokens

/-! ### Numbers -/

theorem atol_decimal {n : ℕ} (hn : n < 2 ^ 63) : atol (decimal n) = n := by
  have hall : ∀ b ∈ decimal n, isDigit b = true := fun b hb => isDigit_of_mem_decimal hb
  have hdigits : (decimal n).takeWhile isDigit = decimal n := List.takeWhile_eq_self_iff.mpr hall
  have hval := digitsValue_decimal n
  unfold atol
  cases hd : decimal n with
  | nil => exact absurd hd (decimal_ne_nil n)
  | cons b ds =>
      rw [hd] at hall hdigits hval
      have hb := hall b List.mem_cons_self
      simp only [isDigit, Bool.and_eq_true, decide_eq_true_eq, UInt8.le_iff_toNat_le] at hb
      have hb₁ : 48 ≤ b.toNat := hb.1
      -- the first digit is neither white space nor a sign
      have hspace : isSpace b = false := by
        simp only [isSpace, Bool.or_eq_false_iff, Bool.and_eq_false_iff, decide_eq_false_iff_not,
          UInt8.le_iff_toNat_le, ← UInt8.toNat_inj]
        simp
        omega
      have h45 : b ≠ 45 := by
        rintro rfl
        simp at hb₁
      have h43 : b ≠ 43 := by
        rintro rfl
        simp at hb₁
      rw [List.dropWhile_cons_of_neg (by simp [hspace])]
      split
      · next heq => exact absurd (List.cons.inj heq).1 h45
      · next heq => exact absurd (List.cons.inj heq).1 h43
      · rw [hdigits, hval]
        omega

end OsProjects
