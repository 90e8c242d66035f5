import OsProjects.GetfileServer

/-! # One buffer for all connections

`readData` keeps what earlier connections have sent.  A connection sees nothing of it where the
string at the beginning of the buffer ends with the bytes just received: they contain a NUL or
there is one right behind them (`Ended`).

* `serveConnection_apart` — then the decision is a function of the connection's own pieces
  (`ownDecision`).
* `decisions_agree` — two runs in which all strings end so take the same decision for connections
  that receive the same pieces. -/

namespace OsProjects.Getfile

/-! ### Strings that end with what was received -/

/-- The string that `recv` of `p` leaves in the buffer ends inside `p` or right behind it. -/
def Ended (p readData : List Byte) : Prop := 0 ∈ p ∨ (readData.drop p.length).head? = some 0

theorem cstr_length_le (m : List Byte) : (cstr m).length ≤ m.length :=
  (List.takeWhile_sublist _).length_le

theorem cstr_recvInto {p readData : List Byte} (h : Ended p readData) :
    0 ∈ recvInto p readData ∧ cstr (recvInto p readData) = cstr p := by
  unfold recvInto
  by_cases h0 : 0 ∈ p
  · refine ⟨List.mem_append_left _ h0, ?_⟩
    obtain ⟨u, hu, hhead⟩ := cstr_split p
    cases u with
    | nil =>
        rw [hu, List.append_nil] at h0
        exact absurd rfl (mem_cstr h0)
    | cons b u =>
        have hs : 0 ∉ cstr p := fun h => mem_cstr h rfl
        have hc : cstr (cstr p ++ b :: (u ++ readData.drop p.length)) = cstr p :=
          cstr_append hs hhead
        rwa [← List.cons_append, ← List.append_assoc, ← hu] at hc
  · have hbehind := h.resolve_left h0
    refine ⟨List.mem_append_right _ (List.mem_of_head? hbehind), ?_⟩
    rw [cstr_of_notMem h0]
    apply cstr_append h0
    intro b hb
    rw [hbehind] at hb
    exact (Option.some.inj hb).symm

/-- The copy of the buffer is the string received exactly if that ends the string. -/
theorem copyString_recvInto {p readData : List Byte} {room : ℕ} (hroom : p.length ≤ room) :
    copyString room (recvInto p readData) = some (cstr p) ↔ Ended p readData := by
  constructor
  · intro h
    unfold copyString at h
    split at h
    · next hcopy =>
        apply or_iff_not_imp_left.mpr
        intro h0
        obtain ⟨hmem, -⟩ := hcopy
        have hc := Option.some.inj h
        unfold recvInto at hmem hc
        have hmem' := (List.mem_append.mp hmem).resolve_left h0
        rw [cstr_append_of_notMem h0, cstr_of_notMem h0] at hc
        have hnil : cstr (readData.drop p.length) = [] := by simpa using hc
        cases ht : readData.drop p.length with
        | nil =>
            rw [ht] at hmem'
            cases hmem'
        | cons b t =>
            rw [ht] at hnil
            by_cases hb : b = 0
            · rw [hb]
              rfl
            · simp [cstr, hb] at hnil
    · cases h
  · intro h
    obtain ⟨hmem, hc⟩ := cstr_recvInto h
    have hlen := cstr_length_le p
    unfold copyString
    rw [hc, if_pos ⟨hmem, by omega⟩]

/-- Where it does not end, the string with its stale bytes does not fit into the room for what was
received. -/
theorem copyString_eq_none {p readData : List Byte} (h0 : 0 ∉ p) (h : ¬Ended p readData) :
    copyString p.length (recvInto p readData) = none := by
  have hstring : cstr (recvInto p readData) = p ++ cstr (readData.drop p.length) :=
    cstr_append_of_notMem h0 _
  by_contra hne
  unfold copyString at hne
  split at hne
  · next hcopy =>
      obtain ⟨hmem, hle⟩ := hcopy
      rw [hstring, List.length_append] at hle
      have hnil : cstr (readData.drop p.length) = [] := List.length_eq_zero_iff.mp (by omega)
      have hsome : copyString p.length (recvInto p readData) = some (cstr p) := by
        unfold copyString
        rw [hstring, hnil, List.append_nil, cstr_of_notMem h0, if_pos ⟨hmem, le_rfl⟩]
      exact h ((copyString_recvInto le_rfl).mp hsome)
  · exact hne rfl

/-! ### Tokens -/

theorem tokens_cstr (m : List Byte) :
    (tokens m).scheme = (tokens (cstr m)).scheme ∧
      (tokens m).request = (tokens (cstr m)).request ∧
      (tokens m).filename = (tokens (cstr m)).filename := by
  have h₁ : 0 ∉ str " " := by decide
  have h₂ : 0 ∉ str " \r\n" := by decide
  obtain ⟨hscheme, hrest⟩ := strtok_cstr h₁ m
  obtain ⟨hrequest, hrest'⟩ := strtok_cstr h₁ (strtok (str " ") m).rest
  obtain ⟨hfilename, -⟩ := strtok_cstr h₂ (strtok (str " ") (strtok (str " ") m).rest).rest
  rw [hrest] at hrequest hrest'
  rw [hrest'] at hfilename
  exact ⟨hscheme, hrequest, hfilename⟩

theorem firstDecision_cstr (readlen : ℕ) (dataread m : List Byte) :
    firstDecision readlen dataread (tokens m) =
      firstDecision readlen dataread (tokens (cstr m)) := by
  obtain ⟨hscheme, hrequest, hfilename⟩ := tokens_cstr m
  unfold firstDecision
  rw [hscheme, hrequest, hfilename]

/-! ### One connection -/

/-- The decision on the pieces alone. -/
def ownDecision (pieces : List (List Byte)) : Decision :=
  let p := pieces.headD []
  let q := pieces.tail.headD []
  match firstDecision p.length (cstr p) (tokens (cstr p)) with
  | some d => d
  | none => .handler (tokens (cstr p ++ cstr q)).filename

/-- The strings of both calls of `recv` end with what is received; the second one is looked at
where the first piece leads to it, in the buffer that `strtok` has left. -/
def Apart (readData : List Byte) (pieces : List (List Byte)) : Prop :=
  let p := pieces.headD []
  Ended p readData ∧
    (firstDecision p.length (cstr p) (tokens (cstr p)) = none →
      Ended (pieces.tail.headD []) (tokens (recvInto p readData)).memory)

theorem apart_of_zero_mem (readData : List Byte) {p : List Byte} (h0 : 0 ∈ p)
    (hfirst : firstDecision p.length (cstr p) (tokens (cstr p)) ≠ none) : Apart readData [p] :=
  ⟨Or.inl h0, fun h => absurd h hfirst⟩

theorem serveConnection_apart {readData : List Byte} {pieces : List (List Byte)}
    (h : Apart readData pieces) :
    ∃ readData', serveConnection readData pieces = some (ownDecision pieces, readData') := by
  obtain ⟨hp, hq⟩ := h
  unfold serveConnection ownDecision
  simp only [(copyString_recvInto le_rfl).mpr hp]
  rw [firstDecision_cstr, (cstr_recvInto hp).2]
  cases hfirst : firstDecision (pieces.headD []).length (cstr (pieces.headD []))
      (tokens (cstr (pieces.headD []))) with
  | some d => exact ⟨_, rfl⟩
  | none =>
      have hlen := cstr_length_le (pieces.headD [])
      have hroom : (pieces.tail.headD []).length ≤ (pieces.headD []).length +
          (pieces.tail.headD []).length - (cstr (pieces.headD [])).length := by
        omega
      simp only [(copyString_recvInto hroom).mpr (hq hfirst)]
      exact ⟨_, rfl⟩

/-! ### Runs -/

/-- In every turn of the loop the strings end with what is received. -/
def AllApart (readData : List Byte) : List (List (List Byte)) → Prop
  | [] => True
  | c :: cs => Apart readData c ∧ ∀ r ∈ serveConnection readData c, AllApart r.2 cs

theorem gfserverServe_apart {readData : List Byte} {cs : List (List (List Byte))}
    (h : AllApart readData cs) : gfserverServe readData cs = some (cs.map ownDecision) := by
  induction cs generalizing readData with
  | nil => rfl
  | cons c cs ih =>
      obtain ⟨hc, hcs⟩ := h
      obtain ⟨readData', hserve⟩ := serveConnection_apart hc
      unfold gfserverServe
      simp only [hserve, ih (hcs _ hserve), Option.map_some, List.map_cons]

/-- Two runs of the server, from any content of the buffer, in which the strings end with what is
received: connections that receive the same pieces get the same decision and path. -/
theorem decisions_agree (b₁ b₂ : List Byte) (cs₁ cs₂ : List (List (List Byte)))
    (h₁ : AllApart b₁ cs₁) (h₂ : AllApart b₂ cs₂) :
    ∃ ds₁ ds₂, gfserverServe b₁ cs₁ = some ds₁ ∧ gfserverServe b₂ cs₂ = some ds₂ ∧
      ds₁.length = cs₁.length ∧ ds₂.length = cs₂.length ∧
      ∀ j k : ℕ, cs₁[j]? = cs₂[k]? → ds₁[j]? = ds₂[k]? := by
  refine ⟨_, _, gfserverServe_apart h₁, gfserverServe_apart h₂, List.length_map _,
    List.length_map _, fun j k hjk => ?_⟩
  rw [List.getElem?_map, List.getElem?_map, hjk]

theorem decisions_agree_afterOthers :
    ∃ ds₁ ds₂, gfserverServe (List.replicate bufsize 0)
        [[str "GETFILE GET /a\r\n\r\n" ++ [0]], [str "GETFILE GET /c\r\n\r\n" ++ [0]]] = some ds₁ ∧
      gfserverServe (List.replicate bufsize 7) [[str "GETFILE GET /c\r\n\r\n" ++ [0]]] = some ds₂ ∧
      ds₁.length = 2 ∧ ds₂.length = 1 ∧
      ∀ j k : ℕ,
        [[str "GETFILE GET /a\r\n\r\n" ++ [0]], [str "GETFILE GET /c\r\n\r\n" ++ [0]]][j]? =
          [[str "GETFILE GET /c\r\n\r\n" ++ [0]]][k]? → ds₁[j]? = ds₂[k]? :=
  decisions_agree _ _ _ _
    ⟨apart_of_zero_mem _ (by decide) (by decide), fun _ _ =>
      ⟨apart_of_zero_mem _ (by decide) (by decide), fun _ _ => trivial⟩⟩
    ⟨apart_of_zero_mem _ (by decide) (by decide), fun _ _ => trivial⟩

/-- A stale byte of the first request ends the path of the second one, whose first piece is
shortened by a NUL. -/
theorem decisions_leak :
    ¬∀ (cs₁ cs₂ : List (List (List Byte))) (k : ℕ) (ds₁ ds₂ : List Decision),
      gfserverServe (List.replicate bufsize 0) cs₁ = some ds₁ →
      gfserverServe (List.replicate bufsize 0) cs₂ = some ds₂ →
      cs₁[k]? = cs₂[k]? → ds₁[k]? = ds₂[k]? := by
  intro h
  have hleak := h [[str "GETFILE GET Z"], [str "GETFILE GET" ++ [0], str " /xxxxxxxxxx"]]
    [[str "GETFILE GET a"], [str "GETFILE GET" ++ [0], str " /xxxxxxxxxx"]] 1
    [.handler (some (str "Z")), .handler (some (str "/xxxxxxxxxxZ"))]
    [.handler (some (str "a")), .handler (some (str "/xxxxxxxxxxa"))]
    (by decide +kernel) (by decide +kernel) (by simp)
  exact absurd hleak (by decide)

end OsProjects.Getfile
