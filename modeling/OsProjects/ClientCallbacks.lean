import OsProjects.ResponseGrammar

/-! # What the client's callbacks see

On the calls of `perform`.

* `not_endsCleanly` — a `recv` that fails never ends a download as it should: before the header the
  run has no defined behaviour, and behind it `writefunc` is given `2 ^ 64 - 1` bytes and the loop
  goes on, or succeeds if the counter then meets the length.
* `not_headerSeenOnce` — no header of the grammar reaches `headerfunc`: behind an `OK` it is not
  called, and the other two statuses get a literal text, and only if there is a header argument. -/

namespace OsProjects.Getfile

/-- The state behind some results of `recv`, if the loop still runs. -/
def advance (heap : List Byte) (s : Client) : List Recv → Option Client
  | [] => some s
  | r :: rs =>
      match iteration heap s r with
      | some (.next s') => advance heap s' rs
      | _ => none

/-- The `recv` behind `before`, which finds the state `s₀`, fails: the run returns a negative value,
without a further call, and with as many bytes counted as were delivered. -/
def EndsCleanly (heap : List Byte) (gfr : Request) (before after : List Recv) (s₀ : Client) : Prop :=
  ∃ ret s, perform heap gfr (before ++ .error :: after) = some (ret, s) ∧ ret < 0 ∧
    s.calls = s₀.calls ∧ s.gfr.bytesOfFileReceived = writtenSize s₀.calls

/-- A complete header of the grammar. -/
def IsHeader (header : List Byte) : Prop :=
  OkForm header [] ∨ ∃ statusText ∈ [str "FILE_NOT_FOUND", str "ERROR"], ∃ blank ∈ [[], str " "],
    header = str "GETFILE " ++ statusText ++ blank ++ str "\r\n\r\n"

/-- `headerfunc` is called once, before any other call, with the header that was received. -/
def HeaderSeenOnce (heap : List Byte) (gfr : Request) (header content : List Byte)
    (rest : List Recv) : Prop :=
  ∃ ret s calls, perform heap gfr (.data (header ++ content) :: rest) = some (ret, s) ∧
    s.calls = .header header header.length :: calls ∧ ∀ call ∈ calls, call.isHeader = false

/-! ### Runs -/

section runs
variable {heap : List Byte} {s s₀ t : Client} {rs : List Recv} {ret : ℤ}

theorem performFrom_advance {before : List Recv} (h : advance heap s before = some s₀)
    (rs : List Recv) : performFrom heap s (before ++ rs) = performFrom heap s₀ rs := by
  induction before generalizing s with
  | nil =>
      obtain rfl := Option.some.inj h
      rfl
  | cons r before ih =>
      rw [advance] at h
      rw [List.cons_append, performFrom]
      cases hiter : iteration heap s r with
      | none => simp [hiter] at h
      | some e =>
          cases e with
          | returned ret s' => simp [hiter] at h
          | next s' =>
              rw [hiter] at h
              exact ih h

end runs

/-! ### A failed `recv` -/

theorem calls_of_read {heap : List Byte} {s s₀ : Client} {r : Recv} (hr : r.bytesRead ≠ 0)
    (hc : s₀.headerComplete = true) {after : List Recv} {ret : ℤ}
    (hrun : performFrom heap s₀ (r :: after) = some (ret, s)) : s.calls ≠ s₀.calls := by
  rw [performFrom, iteration_body hr hc] at hrun
  have hmore : ∃ calls, s.calls = s₀.calls ++ [r.call] ++ calls := by
    obtain hend | hnext := ended_cases (s₀.write r.received 0 r.bytesRead)
    · rw [hend] at hrun
      obtain ⟨-, rfl⟩ := Prod.mk.inj (Option.some.inj hrun)
      exact ⟨[], (List.append_nil _).symm⟩
    · rw [hnext] at hrun
      have hc' : (s₀.write r.received 0 r.bytesRead).headerComplete = true := hc
      obtain ⟨read, _, hcalls⟩ := performFrom_writes hc' hrun
      exact ⟨_, hcalls⟩
  obtain ⟨calls, hcalls⟩ := hmore
  intro hsame
  rw [hcalls, List.append_assoc, List.append_right_eq_self] at hsame
  cases hsame

theorem iteration_error (heap : List Byte) {s : Client} (hc : s.headerComplete ≠ true) :
    iteration heap s .error = none := by
  have herror : Recv.error.bytesRead ≠ 0 := by decide
  unfold iteration
  rw [if_neg herror, if_neg hc]

/-- **No failed `recv` ends the download cleanly**, at whatever point of whatever run it fails. -/
theorem not_endsCleanly (heap : List Byte) (gfr : Request) (before after : List Recv) (s₀ : Client)
    (h : advance heap (start gfr) before = some s₀) : ¬EndsCleanly heap gfr before after s₀ := by
  rintro ⟨ret, s, hrun, hret, hcalls, _⟩
  rw [perform, performFrom_advance h] at hrun
  by_cases hc : s₀.headerComplete = true
  · -- `writefunc` gets all of `size_t`
    exact calls_of_read (by decide) hc hrun hcalls
  · rw [performFrom, iteration_error heap hc] at hrun
    cases hrun

theorem not_endsCleanly_both :
    (∃ s₀, advance [] (start ⟨.ok, none, 0, 0, [], false⟩) [.data (str "GETFILE OK 2\r\n\r\n")] =
        some s₀ ∧
      ¬EndsCleanly [] ⟨.ok, none, 0, 0, [], false⟩ [.data (str "GETFILE OK 2\r\n\r\n")] [] s₀) ∧
    ∃ s₀, advance [] (start ⟨.ok, none, 0, 0, [], false⟩) [] = some s₀ ∧
      ¬EndsCleanly [] ⟨.ok, none, 0, 0, [], false⟩ [] [] s₀ := by
  obtain ⟨s₀, h⟩ := Option.isSome_iff_exists.mp (by decide +kernel :
    (advance [] (start ⟨.ok, none, 0, 0, [], false⟩)
      [.data (str "GETFILE OK 2\r\n\r\n")]).isSome = true)
  exact ⟨⟨s₀, h, not_endsCleanly _ _ _ _ s₀ h⟩, _, rfl, not_endsCleanly _ _ _ _ _ rfl⟩

/-- `recv` fails behind the header of a file of two bytes: all of `size_t` is passed to
`writefunc`, and the run goes on until the connection is closed. -/
theorem endsCleanly_fails :
    ¬∀ (heap : List Byte) (gfr : Request) (before after : List Recv) (s₀ : Client),
      advance heap (start gfr) before = some s₀ → EndsCleanly heap gfr before after s₀ := by
  intro h
  obtain ⟨s₀, hs₀, hcalls⟩ := Option.map_eq_some_iff.mp (by decide +kernel :
    (advance [] (start ⟨.ok, none, 0, 0, [], false⟩) [.data (str "GETFILE OK 2\r\n\r\n")]).map
      Client.calls = some [.write (str "GETFILE OK 2\r\n\r\n") 16 0])
  obtain ⟨ret, s, hrun, _, hsame, _⟩ := h [] _ _ [] s₀ hs₀
  have hmore : (perform [] ⟨.ok, none, 0, 0, [], false⟩
      ([.data (str "GETFILE OK 2\r\n\r\n")] ++ .error :: [])).map (fun r => r.2.calls) =
      some [.write (str "GETFILE OK 2\r\n\r\n") 16 0, .write [] 0 (2 ^ 64 - 1)] := by
    decide +kernel
  rw [hrun, Option.map_some, hsame, hcalls] at hmore
  exact absurd hmore (by decide)

/-! ### The header -/

theorem IsHeader.forms {header : List Byte} (h : IsHeader header) (content : List Byte) :
    OkForm (header ++ content) content ∨ StatusForm (str "FILE_NOT_FOUND") (header ++ content) ∨
      StatusForm (str "ERROR") (header ++ content) := by
  obtain ⟨ds, hds, hrest⟩ | ⟨statusText, hstatus, blank, hblank, rfl⟩ := h
  · refine .inl ⟨ds, ?_, hrest⟩
    rw [hds, List.append_nil]
  · obtain rfl | rfl := List.mem_pair.mp hstatus
    · exact .inr (.inl ⟨blank, content, hblank, rfl⟩)
    · exact .inr (.inr ⟨blank, content, hblank, rfl⟩)

theorem IsHeader.newline {header : List Byte} (h : IsHeader header) : 10 ∈ header := by
  have hcrlf : (10 : Byte) ∈ str "\r\n\r\n" := by decide
  obtain ⟨ds, rfl, _⟩ | ⟨statusText, _, blank, _, rfl⟩ := h
  · rw [List.append_nil]
    exact List.mem_append_right _ hcrlf
  · exact List.mem_append_right _ hcrlf

section headerfunc
variable {heap header content : List Byte} {gfr : Request} {rest : List Recv}

theorem not_headerSeen_literal {text : List Byte} (h : IsHeader header) (htext : 10 ∉ text)
    {s : Client} (hs : s.calls = []) {calls : List Callback} :
    (s.header text).calls ≠ .header header header.length :: calls := by
  unfold Client.header
  split
  · dsimp only
    rw [hs, List.nil_append]
    intro heq
    have hsame := (Callback.header.inj (List.cons.inj heq).1).1
    rw [hsame] at htext
    exact htext h.newline
  · rw [hs]
    exact (List.cons_ne_nil _ _).symm

theorem not_headerSeen_ok {p n : List Byte} (hp : p ≠ []) (h : parse heap p = .ok n) {ret : ℤ}
    {s : Client} (hrun : perform heap gfr (.data p :: rest) = some (ret, s))
    {calls : List Callback} : s.calls ≠ .header header header.length :: calls := by
  obtain ⟨read, _, hcalls⟩ := perform_calls hp h hrun
  rw [hcalls]
  intro heq
  cases (List.cons.inj heq).1

/-- **No header of the grammar is seen by `headerfunc`** as it was received, whatever pieces follow
and whether or not there is a header argument. -/
theorem not_headerSeenOnce (heap : List Byte) (gfr : Request) (header content : List Byte)
    (rest : List Recv) (h : IsHeader header) :
    ¬HeaderSeenOnce heap gfr header content rest := by
  rintro ⟨ret, s, calls, hrun, hcalls, _⟩
  have hp : header ++ content ≠ [] := List.append_ne_nil_of_left_ne_nil
    (List.ne_nil_of_mem h.newline) content
  obtain hform | hform | hform := h.forms content
  · obtain ⟨ds, hr, _⟩ := reading_okForm hform heap
    exact not_headerSeen_ok hp (parse_of_announced hr).1 hrun hcalls
  · obtain ⟨r, hr⟩ := parse_statusForm isWord_fileNotFound hform heap
    have hparse : parse heap (header ++ content) = .fileNotFound := hr
    simp only [perform, performFrom, iteration_first hp, headerIteration, hparse,
      Option.some.injEq, Prod.mk.injEq] at hrun
    rw [← hrun.2] at hcalls
    exact not_headerSeen_literal h (by decide) rfl hcalls
  · obtain ⟨r, hr⟩ := parse_statusForm isWord_error hform heap
    have hparse : parse heap (header ++ content) = .error := hr
    simp only [perform, performFrom, iteration_first hp, headerIteration, hparse,
      Option.some.injEq, Prod.mk.injEq] at hrun
    rw [← hrun.2] at hcalls
    exact not_headerSeen_literal h (by decide) rfl hcalls

end headerfunc

theorem isHeader_two : IsHeader (str "GETFILE OK 2\r\n\r\n") := by
  have hvalue : digitsValue (str "2") = 2 := by decide
  have hdigits : (str "2").all isDigit = true := by decide
  refine .inl ⟨str "2", by decide, by decide, List.all_eq_true.mp hdigits, ?_⟩
  rw [hvalue]
  omega

theorem not_headerSeenOnce_two :
    IsHeader (str "GETFILE OK 2\r\n\r\n") ∧
      ¬HeaderSeenOnce [] ⟨.ok, none, 0, 0, [], true⟩ (str "GETFILE OK 2\r\n\r\n") (str "ab") [] :=
  ⟨isHeader_two, not_headerSeenOnce _ _ _ _ _ isHeader_two⟩

/-- The same response: its only call is one of `writefunc`. -/
theorem headerSeenOnce_fails :
    ¬∀ (heap : List Byte) (gfr : Request) (header content : List Byte) (rest : List Recv),
      IsHeader header → HeaderSeenOnce heap gfr header content rest := by
  intro h
  obtain ⟨ret, s, calls, hrun, hcalls, _⟩ := h [] ⟨.ok, none, 0, 0, [], true⟩
    (str "GETFILE OK 2\r\n\r\n") (str "ab") [] isHeader_two
  have honly : (perform [] ⟨.ok, none, 0, 0, [], true⟩
      [.data (str "GETFILE OK 2\r\n\r\n" ++ str "ab")]).map (fun r => r.2.calls) =
      some [.write (str "GETFILE OK 2\r\n\r\n" ++ str "ab") 16 2] := by
    decide +kernel
  rw [hrun, Option.map_some, hcalls] at honly
  have hfirst := congrArg Callback.isHeader (List.cons.inj (Option.some.inj honly)).1
  exact Bool.noConfusion hfirst

end OsProjects.Getfile
