import OsProjects.ClientCallbacks

/-! # The pieces that reach the `OK` branch

`gfc_perform` takes the content from behind fifteen bytes and the length, which is where it is in a
complete header without superfluous delimiters; a first piece only has to have eleven bytes.

* `parse_ok_iff` — the pieces for which the branch is reached: their string is made of the three
  words and delimiters around them (`OkHeader`).
* `within_iff` — what `writefunc` gets lies inside of what was received exactly if the piece is no
  shorter than a complete header with its length. -/

namespace OsProjects.Getfile

/-- A piece of more than ten bytes whose string, with what the heap holds behind it, is made of
`GETFILE`, `OK` and a length. -/
structure OkHeader (heap p : List Byte) where
  lead : List Byte
  gap : List Byte
  delim : Byte
  gapBehind : List Byte
  filelength : List Byte
  behind : List Byte
  string : cstr (p ++ heap) = lead ++ (str "GETFILE" ++ 32 ::
    (gap ++ (str "OK" ++ delim :: (gapBehind ++ (filelength ++ behind)))))
  lead_blank : ∀ b ∈ lead, b ∈ str " "
  gap_delims : ∀ b ∈ gap, b ∈ str " \r\n"
  delim_mem : delim ∈ str " \r\n"
  gapBehind_delims : ∀ b ∈ gapBehind, b ∈ str " \r\n"
  word : IsWord (str " \r\n") filelength
  behind_delim : ∀ b ∈ behind.head?, b ∈ str " \r\n"
  long : 10 < p.length

/-- At every point of the run, which is where the connection may be closed, all calls of `writefunc`
so far lie in their pieces, and no more bytes than received have been given to it. -/
def Within (heap : List Byte) (gfr : Request) (pieces : List (List Byte)) : Prop :=
  ∀ before, before <+: pieces → ∀ ret s,
    perform heap gfr (before.map .data) = some (ret, s) →
      (∀ call ∈ s.calls, call.InPiece) ∧ writtenSize s.calls ≤ before.flatten.length

/-! ### The branch -/

section branch
variable {heap p n : List Byte}

theorem parse_ok_tokens : parse heap p = .ok n ↔ 10 < p.length ∧
    headerTokens (p ++ heap) = [some (str "GETFILE"), some (str "OK"), some n] := by
  unfold parse headerTokens
  by_cases h7 : p.length ≤ 7
  · rw [if_pos h7]
    exact iff_of_false (by simp) fun h => by omega
  rw [if_neg h7]
  dsimp only
  cases hscheme : (strtok (str " ") (p ++ heap)).token with
  | none => simp
  | some word =>
      dsimp only
      by_cases hword : word = str "GETFILE"
      · by_cases h10 : p.length ≤ 10
        · simp only [hword, ne_eq, not_true_eq_false, if_false, if_pos h10]
          exact iff_of_false (by simp) fun h => by omega
        · rw [if_neg (not_not.mpr hword), if_neg h10, if_pos (congrArg some hword), hword,
            and_iff_right (not_le.mp h10)]
          cases hstatus : (strtok (str " \r\n") (strtok (str " ") (p ++ heap)).rest).token with
          | none => simp
          | some statusText =>
              dsimp only
              unfold parseStatus
              by_cases hok : statusText = str "OK"
              · rw [if_neg (not_not.mpr hok), if_pos (congrArg some hok), hok]
                cases lengthToken
                    (strtok (str " \r\n") (strtok (str " ") (p ++ heap)).rest).rest with
                | none => simp
                | some n' => simp
              · rw [if_pos hok]
                refine iff_of_false ?_ (by simp [hok])
                split
                · simp
                · split <;> simp
      · rw [if_pos hword]
        exact iff_of_false (by simp) (by simp [hword])

theorem headerTokens_parts {lead gap gapBehind behind : List Byte} {delim : Byte}
    (hlead : ∀ b ∈ lead, b ∈ str " ") (hgap : ∀ b ∈ gap, b ∈ str " \r\n")
    (hdelim : delim ∈ str " \r\n") (hgapBehind : ∀ b ∈ gapBehind, b ∈ str " \r\n")
    (hword : IsWord (str " \r\n") n) (hbehind : ∀ b ∈ behind.head?, b ∈ str " \r\n") :
    headerTokens (lead ++ (str "GETFILE" ++ 32 ::
      (gap ++ (str "OK" ++ delim :: (gapBehind ++ (n ++ behind)))))) =
      [some (str "GETFILE"), some (str "OK"), some n] := by
  have h0 : 0 ∉ str " \r\n" := by decide
  have hblank : (32 : Byte) ∈ str " " := by decide
  obtain ⟨hscheme, hrest⟩ := strtok_parts (r := 32 ::
    (gap ++ (str "OK" ++ delim :: (gapBehind ++ (n ++ behind))))) (by decide) hlead isWord_getfile
    (by simpa using hblank)
  obtain ⟨hstatus, hrest₂⟩ := strtok_parts (r := delim :: (gapBehind ++ (n ++ behind))) h0 hgap
    isWord_ok (by simpa using hdelim)
  obtain ⟨hlength, _⟩ := strtok_parts h0 hgapBehind hword hbehind
  unfold headerTokens
  dsimp only
  rw [hscheme, if_pos rfl, hrest, List.tail_cons, hstatus, if_pos rfl, hrest₂, List.tail_cons,
    lengthToken_eq, hlength]

theorem parts_of_headerTokens {m : List Byte} (h0 : 0 ∉ m)
    (h : headerTokens m = [some (str "GETFILE"), some (str "OK"), some n]) :
    ∃ lead gap delim gapBehind behind,
      m = lead ++ (str "GETFILE" ++ 32 ::
        (gap ++ (str "OK" ++ delim :: (gapBehind ++ (n ++ behind))))) ∧
      (∀ b ∈ lead, b ∈ str " ") ∧ (∀ b ∈ gap, b ∈ str " \r\n") ∧ delim ∈ str " \r\n" ∧
      (∀ b ∈ gapBehind, b ∈ str " \r\n") ∧ IsWord (str " \r\n") n ∧
      ∀ b ∈ behind.head?, b ∈ str " \r\n" := by
  unfold headerTokens at h
  dsimp only at h
  have hscheme := (List.cons.inj h).1
  rw [if_pos hscheme] at h
  have hstatus := (List.cons.inj (List.cons.inj h).2).1
  rw [if_pos hstatus, lengthToken_eq] at h
  have hlength := (List.cons.inj (List.cons.inj (List.cons.inj h).2).2).1
  have hnil : ∀ delims : List Byte, (strtok delims []).token = none := fun _ => rfl
  -- a token behind each of the first two, so a delimiter ends them
  have hrest₁ : (strtok (str " ") m).rest ≠ [] := by
    intro hempty
    rw [hempty, hnil] at hstatus
    cases hstatus
  have hrest₂ : (strtok (str " \r\n") (strtok (str " ") m).rest).rest ≠ [] := by
    intro hempty
    rw [hempty, hnil] at hlength
    cases hlength
  have h0₁ : 0 ∉ (strtok (str " ") m).rest := rest_notMem h0
  obtain ⟨lead, d, hm, hlead, hd⟩ := parts_of_token_rest h0 hscheme hrest₁
  obtain ⟨gap, delim, hm₁, hgap, hdelim⟩ := parts_of_token_rest h0₁ hstatus hrest₂
  obtain ⟨gapBehind, behind, hm₂, hgapBehind, hword, hbehind, _⟩ :=
    parts_of_token (rest_notMem h0₁) hlength
  obtain rfl : d = 32 := List.mem_singleton.mp hd
  rw [hm₂] at hm₁
  rw [hm₁] at hm
  exact ⟨lead, gap, delim, gapBehind, behind, hm, hlead, hgap, hdelim, hgapBehind, hword, hbehind⟩

/-- **The pieces that reach the `OK` branch with a length.** -/
theorem parse_ok_iff : parse heap p = .ok n ↔ ∃ h : OkHeader heap p, h.filelength = n := by
  rw [parse_ok_tokens, headerTokens_cstr]
  constructor
  · rintro ⟨hlong, htokens⟩
    obtain ⟨lead, gap, delim, gapBehind, behind, hm, hlead, hgap, hdelim, hgapBehind, hword,
      hbehind⟩ := parts_of_headerTokens (fun h => mem_cstr h rfl) htokens
    exact ⟨⟨lead, gap, delim, gapBehind, n, behind, hm, hlead, hgap, hdelim, hgapBehind, hword,
      hbehind, hlong⟩, rfl⟩
  · rintro ⟨h, rfl⟩
    refine ⟨h.long, ?_⟩
    rw [h.string]
    exact headerTokens_parts h.lead_blank h.gap_delims h.delim_mem h.gapBehind_delims h.word
      h.behind_delim

end branch

/-! ### What is written -/

section written
variable {heap p n : List Byte} {gfr : Request} {ret : ℤ} {t : Client}

/-- Behind a whole header no more than what is received is written. -/
theorem writtenSize_le (hp : p ≠ []) (h : parse heap p = .ok n) {ps : List (List Byte)}
    (hlong : n.length + 15 ≤ p.length)
    (hrun : perform heap gfr ((p :: ps).map .data) = some (ret, t)) :
    writtenSize t.calls ≤ (p :: ps).flatten.length := by
  obtain ⟨k, hcalls⟩ := perform_pieces hp h hrun
  have hfirst : filecontentlength p n ≤ p.length := by
    rw [filecontentlength_of_le hlong, List.length_drop]
    exact Nat.sub_le _ _
  have hsplit : ps.flatten.length = (ps.take k).flatten.length + (ps.drop k).flatten.length := by
    rw [← List.length_append, ← List.flatten_append, List.take_append_drop]
  rw [hcalls, ← List.singleton_append, writtenSize_append, writtenSize_write, writtenSize_pieces,
    List.flatten_cons, List.length_append]
  omega

/-- **The length of the content does not wrap exactly if the first piece is no shorter than a
complete header with the length that is read**, whatever follows. -/
theorem within_iff (h : OkHeader heap p) (gfr : Request) (rest : List (List Byte)) :
    Within heap gfr (p :: rest) ↔
      (str "GETFILE OK " ++ h.filelength ++ str "\r\n\r\n").length ≤ p.length := by
  have hheader : (str "GETFILE OK " ++ h.filelength ++ str "\r\n\r\n").length =
      h.filelength.length + 15 := by
    have hfront : (str "GETFILE OK ").length = 11 := by decide
    have hback : (str "\r\n\r\n").length = 4 := by decide
    rw [List.length_append, List.length_append, hfront, hback]
    omega
  rw [hheader]
  have hparse : parse heap p = .ok h.filelength := parse_ok_iff.mpr ⟨h, rfl⟩
  have hp : p ≠ [] := List.ne_nil_of_length_pos (Nat.zero_lt_of_lt h.long)
  constructor
  · intro hwithin
    obtain ⟨ret, t, hrun, _⟩ := perform_ends hp hparse gfr (List.forall_mem_nil _)
    obtain ⟨hin, _⟩ := hwithin [p] (List.prefix_append [p] rest) ret t hrun
    exact (perform_inPiece_iff hp hparse hrun).mp hin
  · intro hlong before hbefore ret s hrun
    obtain rfl | ⟨ps, rfl, _⟩ := List.prefix_cons_iff.mp hbefore
    · -- no byte was received
      obtain ⟨_, rfl⟩ := Prod.mk.inj (Option.some.inj hrun)
      exact ⟨List.forall_mem_nil _, Nat.zero_le _⟩
    · exact ⟨(perform_inPiece_iff hp hparse hrun).mpr hlong,
        writtenSize_le hp hparse hlong hrun⟩

end written

/-- A header cut behind its length. -/
def okHeaderCut : OkHeader [0] (str "GETFILE OK 12345") where
  lead := []
  gap := []
  delim := 32
  gapBehind := []
  filelength := str "12345"
  behind := []
  string := by decide
  lead_blank := List.forall_mem_nil _
  gap_delims := List.forall_mem_nil _
  delim_mem := by decide
  gapBehind_delims := List.forall_mem_nil _
  word := by decide
  behind_delim _ h := nomatch h
  long := by decide

theorem within_iff_cut : Within [0] ⟨.ok, none, 0, 0, [], false⟩ [str "GETFILE OK 12345"] ↔
    (str "GETFILE OK " ++ okHeaderCut.filelength ++ str "\r\n\r\n").length ≤
      (str "GETFILE OK 12345").length :=
  within_iff okHeaderCut _ []

/-- Its `writefunc` gets more bytes than were received. -/
theorem not_within_cut : ¬∀ (heap p : List Byte) (_ : OkHeader heap p) (gfr : Request)
    (rest : List (List Byte)), Within heap gfr (p :: rest) := by
  intro h
  have hwithin := h [0] _ okHeaderCut ⟨.ok, none, 0, 0, [], false⟩ []
  have hp : str "GETFILE OK 12345" ≠ [] := by decide
  have hparse := parse_ok_iff.mpr ⟨okHeaderCut, rfl⟩
  obtain ⟨ret, t, hrun, _⟩ := perform_ends hp hparse ⟨.ok, none, 0, 0, [], false⟩
    (List.forall_mem_nil _)
  obtain ⟨hin, _⟩ := hwithin [_] List.prefix_rfl ret t hrun
  exact absurd ((perform_inPiece_iff hp hparse hrun).mp hin) (by decide)

end OsProjects.Getfile
