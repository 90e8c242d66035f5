import OsProjects.RequestBuffer
import Mathlib.Data.List.TakeDrop

/-! # Cutting a request into pieces

`gfserver_serve` looks at the first piece of a request, and at a second one only behind twelve
bytes without a path or behind the first byte after the path.

* `firstDecision_scheme`, `firstDecision_path` — the decision after a first piece that ends before
  or in the path, or behind it.
* `handler_iff` — the lengths of the first two pieces for which the handler gets the path. -/

namespace OsProjects.Getfile

/-! ### The tokens of a cut request -/

theorem tokens_get (x : List Byte) :
    tokens (str "GETFILE GET " ++ x) =
      ⟨some (str "GETFILE"), some (str "GET"), (strtok (str " \r\n") x).token,
        str "GETFILE" ++ [0] ++ (str "GET" ++ [0] ++
          ((strtok (str " \r\n") x).passed ++ (strtok (str " \r\n") x).rest))⟩ := by
  have hm : str "GETFILE GET " ++ x = str "GETFILE" ++ 32 :: (str "GET" ++ 32 :: x) := rfl
  have hw₁ : IsWord (str " ") (str "GETFILE") := by decide
  have hw₂ : IsWord (str " ") (str "GET") := by decide
  have hd : (32 : Byte) ∈ str " " := by decide
  unfold tokens
  rw [hm]
  simp only [strtok_delim hw₁ _ hd (by decide), strtok_delim hw₂ _ hd (by decide)]

section path
variable {p : List Byte}

/-- A request cut `j` bytes behind its method: the bytes of the path, and those behind it. -/
theorem take_path (p : List Byte) (j : ℕ) :
    (p ++ str "\r\n\r\n").take j = p.take j ++ (str "\r\n\r\n").take (j - p.length) :=
  List.take_append

theorem isWord_take (hp : IsWord (str " \r\n") p) {j : ℕ} (hj : 0 < j) :
    IsWord (str " \r\n") (p.take j) := by
  refine ⟨fun h => ?_, fun b hb => hp.mem b (List.mem_of_mem_take hb)⟩
  rcases List.take_eq_nil_iff.mp h with h | h
  · omega
  · exact hp.ne_nil h

theorem filename_take (hp : IsWord (str " \r\n") p) {j : ℕ} (hj : 0 < j) :
    (strtok (str " \r\n") ((p ++ str "\r\n\r\n").take j)).token = some (p.take j) := by
  rw [take_path]
  cases hk : j - p.length with
  | zero =>
      have h := strtok_last (isWord_take hp hj) [] (by simp)
      rw [List.take_zero, h]
  | succ k =>
      have hc : (str "\r\n\r\n").take (k + 1) = 13 :: (str "\n\r\n").take k := rfl
      rw [hc, strtok_delim (isWord_take hp hj) _ (by decide) (by decide)]

/-! ### The first piece -/

/-- A first piece that ends in front of the path. -/
theorem firstDecision_scheme : ∀ r < 13,
    firstDecision r ((str "GETFILE GET ").take r) (tokens ((str "GETFILE GET ").take r)) =
      if r ≤ 10 then some .fileNotFound else if r = 11 then some (.handler none) else none := by
  decide

theorem wantsMore_marker : ∀ k < 5,
    ((((str "\r\n\r\n").take k).length = 1 && (str "\r\n\r\n").take k ≠ str " ") ||
      (((str "\r\n\r\n").take k).length = 4 && (str "\r\n\r\n").take k ≠ str "\r\n\r\n")) =
      decide (k = 1) := by
  decide

/-- A first piece that ends in the path or behind it. -/
theorem firstDecision_path (hp : IsWord (str " \r\n") p) {j : ℕ} (hj : 0 < j)
    (hle : j ≤ p.length + 4) (readlen : ℕ) :
    firstDecision readlen (str "GETFILE GET " ++ (p ++ str "\r\n\r\n").take j)
      (tokens (str "GETFILE GET " ++ (p ++ str "\r\n\r\n").take j)) =
      if j = p.length + 1 then none else some (.handler (some (p.take j))) := by
  have hmarker : (str "GETFILE GET " ++ (p ++ str "\r\n\r\n").take j).drop
      ((str "GETFILE").length + (str "GET").length + (p.take j).length + 2) =
        (str "\r\n\r\n").take (j - p.length) := by
    have hlen : (str "GETFILE").length + (str "GET").length + (p.take j).length + 2 =
        (str "GETFILE GET " ++ p.take j).length := by
      rw [List.length_append]
      simp only [show (str "GETFILE").length = 7 from rfl, show (str "GET").length = 3 from rfl,
        show (str "GETFILE GET ").length = 12 from rfl]
      omega
    rw [hlen, take_path, ← List.append_assoc, List.drop_left]
  unfold firstDecision
  simp only [tokens_get, filename_take hp hj]
  rw [if_neg (by decide)]
  unfold wantsMore
  simp only [hmarker]
  rw [wantsMore_marker (j - p.length) (by omega)]
  by_cases h : j = p.length + 1
  · rw [if_pos h, if_pos (by simp only [decide_eq_true_eq]; omega)]
  · rw [if_neg h, if_neg (by simp only [decide_eq_true_eq]; omega)]

end path

/-! ### The second piece -/

theorem memory_get (x : List Byte) : ∃ z, (tokens (str "GETFILE GET " ++ x)).memory =
    str "GETFILE" ++ [0] ++ (str "GET" ++ [0] ++ z) :=
  ⟨_, by rw [tokens_get]⟩

theorem ended_memory {q : List Byte} (hq : 0 ∉ q) (hlen : q.length < 12) (z : List Byte) :
    Ended q (str "GETFILE" ++ [0] ++ (str "GET" ++ [0] ++ z)) ↔ q.length = 7 ∨ q.length = 11 := by
  have hnul : ∀ r < 12, ((str "GETFILE" ++ [0] ++ (str "GET" ++ [0])).drop r).head? = some 0 ↔
      r = 7 ∨ r = 11 := by
    decide
  have h12 : (str "GETFILE" ++ [0] ++ (str "GET" ++ [0])).length = 12 := rfl
  have hne : (str "GETFILE" ++ [0] ++ (str "GET" ++ [0])).drop q.length ≠ [] := by
    rw [ne_eq, List.drop_eq_nil_iff, h12]
    omega
  unfold Ended
  rw [← List.append_assoc, List.drop_append_of_le_length (by omega),
    List.head?_append_of_ne_nil _ hne, hnul _ hlen]
  exact or_iff_right hq

theorem copyString_second {q : List Byte} (hq : 0 ∉ q) (readData : List Byte) (n : ℕ) :
    copyString (n + q.length - n) (recvInto q readData) = some q ∧ Ended q readData ∨
      copyString (n + q.length - n) (recvInto q readData) = none ∧ ¬Ended q readData := by
  rw [Nat.add_sub_cancel_left]
  by_cases h : Ended q readData
  · have hcopy := (copyString_recvInto (le_refl q.length)).mpr h
    rw [cstr_of_notMem hq] at hcopy
    exact Or.inl ⟨hcopy, h⟩
  · exact Or.inr ⟨copyString_eq_none hq h, h⟩

/-! ### The connection -/

theorem ended_zeros {p : List Byte} {n : ℕ} (h : p.length < n) : Ended p (List.replicate n 0) := by
  apply Or.inr
  rw [List.drop_replicate, List.head?_replicate, if_neg (by omega)]

section zeros
variable {pieces : List (List Byte)} {p q : List Byte} {n : ℕ}

theorem recvInto_zeros (h0 : 0 ∉ p) (hlen : p.length < n) :
    cstr (recvInto p (List.replicate n 0)) = p ∧
      copyString p.length (recvInto p (List.replicate n 0)) = some p := by
  have hend := ended_zeros hlen
  have hcopy := (copyString_recvInto (le_refl p.length)).mpr hend
  have hcstr := (cstr_recvInto hend).2
  rw [cstr_of_notMem h0] at hcopy hcstr
  exact ⟨hcstr, hcopy⟩

theorem serveConnection_first (hp : pieces.headD [] = p) (h0 : 0 ∉ p) (hlen : p.length < n)
    {d : Decision} (hd : firstDecision p.length p (tokens p) = some d) :
    (serveConnection (List.replicate n 0) pieces).map Prod.fst = some d := by
  obtain ⟨hcstr, hcopy⟩ := recvInto_zeros h0 hlen
  unfold serveConnection
  simp only [hp, hcopy]
  rw [firstDecision_cstr, hcstr, hd]
  rfl

theorem serveConnection_second (hp : pieces.headD [] = p) (hq : pieces.tail.headD [] = q)
    (h0 : 0 ∉ p) (hlen : p.length < n) (hd : firstDecision p.length p (tokens p) = none) :
    (serveConnection (List.replicate n 0) pieces).map Prod.fst =
      (copyString (p.length + q.length - p.length)
        (recvInto q (tokens (recvInto p (List.replicate n 0))).memory)).map fun more =>
          .handler (tokens (p ++ more)).filename := by
  obtain ⟨hcstr, hcopy⟩ := recvInto_zeros h0 hlen
  unfold serveConnection
  simp only [hp, hq, hcopy]
  rw [firstDecision_cstr, hcstr, hd]
  cases copyString (p.length + q.length - p.length)
      (recvInto q (tokens (recvInto p (List.replicate n 0))).memory) with
  | none => rfl
  | some more => rfl

end zeros

/-! ### The whole request -/

/-- The lengths of the first two pieces for which the handler gets a path of `n` bytes. -/
def Accepted (n : ℕ) (pieces : List (List Byte)) : Prop :=
  let r₁ := (pieces.headD []).length
  let r₂ := (pieces.tail.headD []).length
  12 + n ≤ r₁ ∧ r₁ ≠ 13 + n ∨ r₁ = 12 ∧ n ≤ r₂ ∧ (r₂ = 7 ∨ r₂ = 11 ∨ 12 ≤ r₂)

theorem headD_append_tail (pieces : List (List Byte)) :
    pieces.headD [] ++ pieces.tail.flatten = pieces.flatten := by
  cases pieces <;> rfl

theorem pieces_eq_take {pieces : List (List Byte)} {m : List Byte} (h : pieces.flatten = m) :
    pieces.headD [] = m.take (pieces.headD []).length ∧
      pieces.tail.headD [] =
        (m.drop (pieces.headD []).length).take (pieces.tail.headD []).length := by
  have hp := headD_append_tail pieces
  have hq := headD_append_tail pieces.tail
  rw [← h, ← hp, List.take_left, List.drop_left, ← hq, List.take_left]
  exact ⟨rfl, rfl⟩

section request
variable {p : List Byte} {N : ℕ} {pieces : List (List Byte)}

theorem message_eq (p : List Byte) :
    message p = str "GETFILE GET " ++ (p ++ str "\r\n\r\n") := List.append_assoc _ _ _

theorem message_length (p : List Byte) : (message p).length = p.length + 16 := by
  have h12 : (str "GETFILE GET ").length = 12 := rfl
  have h4 : (str "\r\n\r\n").length = 4 := rfl
  rw [message_eq, List.length_append, List.length_append, h12, h4]
  omega

theorem zero_notMem_message (hp : IsWord (str " \r\n") p) : 0 ∉ message p := by
  have h₁ : 0 ∉ str "GETFILE GET " := by decide
  have h₂ : 0 ∉ str "\r\n\r\n" := by decide
  have h := hp.zero_notMem
  rw [message_eq]
  simp only [List.mem_append, not_or]
  exact ⟨h₁, h, h₂⟩

theorem zero_notMem_pieces (hp : IsWord (str " \r\n") p) (hflat : pieces.flatten = message p) :
    0 ∉ pieces.headD [] ∧ 0 ∉ pieces.tail.headD [] := by
  have hzero := zero_notMem_message hp
  obtain ⟨hpiece, hsecond⟩ := pieces_eq_take hflat
  rw [hpiece, hsecond]
  exact ⟨fun h => hzero (List.mem_of_mem_take h),
    fun h => hzero (List.mem_of_mem_drop (List.mem_of_mem_take h))⟩

theorem headD_eq_path (hflat : pieces.flatten = message p) {j : ℕ}
    (hj : (pieces.headD []).length = 12 + j) :
    pieces.headD [] = str "GETFILE GET " ++ (p ++ str "\r\n\r\n").take j := by
  have h12 : (str "GETFILE GET ").length = 12 := rfl
  obtain ⟨hpiece, -⟩ := pieces_eq_take hflat
  rw [hpiece, hj, message_eq, ← h12, List.take_length_add_append]

theorem serve_scheme (hN : 16 + p.length < N) (hflat : pieces.flatten = message p) (hr : (pieces.headD []).length < 12) :
    (serveConnection (List.replicate N 0) pieces).map Prod.fst ≠ some (.handler (some p)) := by
  obtain ⟨hpiece, -⟩ := pieces_eq_take hflat
  generalize hr₁ : (pieces.headD []).length = r at hpiece hr
  have htake : (message p).take r = (str "GETFILE GET ").take r := by
    rw [message_eq, List.take_append_of_le_length (show r ≤ 12 by omega)]
  have hlen : ((str "GETFILE GET ").take r).length = r := by
    rw [← htake, ← hpiece, hr₁]
  have h0 : 0 ∉ (str "GETFILE GET ").take r := fun h =>
    (by decide : 0 ∉ str "GETFILE GET ") (List.mem_of_mem_take h)
  have hfirst := firstDecision_scheme r (by omega)
  rw [htake] at hpiece
  by_cases h10 : r ≤ 10
  · rw [if_pos h10] at hfirst
    rw [serveConnection_first hpiece h0 (by omega) (by rw [hlen]; exact hfirst)]
    simp
  · rw [if_neg h10, if_pos (by omega)] at hfirst
    rw [serveConnection_first hpiece h0 (by omega) (by rw [hlen]; exact hfirst)]
    simp

theorem serve_path (hp : IsWord (str " \r\n") p) (hN : 16 + p.length < N)
    (hflat : pieces.flatten = message p) (hr : 12 < (pieces.headD []).length)
    (hne : (pieces.headD []).length ≠ 13 + p.length) :
    (serveConnection (List.replicate N 0) pieces).map Prod.fst = some (.handler (some p)) ↔
      12 + p.length ≤ (pieces.headD []).length := by
  obtain ⟨hpiece, -⟩ := pieces_eq_take hflat
  have htotal := message_length p
  have hle : (pieces.headD []).length ≤ (message p).length := by
    rw [hpiece]
    exact List.length_take_le' _ _
  obtain ⟨j, hj⟩ : ∃ j, (pieces.headD []).length = 12 + j := ⟨_, (Nat.add_sub_of_le hr.le).symm⟩
  obtain ⟨h0, -⟩ := zero_notMem_pieces hp hflat
  have htake := headD_eq_path hflat hj
  have hfirst := firstDecision_path hp (show 0 < j by omega) (by omega) (pieces.headD []).length
  rw [if_neg (by omega), ← htake] at hfirst
  rw [serveConnection_first rfl h0 (by omega) hfirst]
  simp only [Option.some.injEq, Decision.handler.injEq, List.take_eq_self_iff]
  omega

/-- The first piece ends one byte behind the path: the stale scheme in the buffer does not fit
behind what is left of the request. -/
theorem serve_after (hp : IsWord (str " \r\n") p) (hN : 16 + p.length < N)
    (hflat : pieces.flatten = message p) (hr : (pieces.headD []).length = 13 + p.length) :
    (serveConnection (List.replicate N 0) pieces).map Prod.fst = none := by
  obtain ⟨-, hsecond⟩ := pieces_eq_take hflat
  obtain ⟨h0, hq⟩ := zero_notMem_pieces hp hflat
  have hr' : (pieces.headD []).length = 12 + (p.length + 1) := by omega
  have hcut := headD_eq_path hflat hr'
  have hqlen : (pieces.tail.headD []).length ≤ 3 := by
    rw [hsecond, hr]
    have h := List.length_take_le' (pieces.tail.headD []).length ((message p).drop (13 + p.length))
    rw [List.length_drop, message_length] at h
    omega
  have hfirst := firstDecision_path hp (show 0 < p.length + 1 by omega) (by omega)
    (pieces.headD []).length
  rw [if_pos rfl, ← hcut] at hfirst
  have hbuf : recvInto (pieces.headD []) (List.replicate N 0) = str "GETFILE GET " ++
      ((p ++ str "\r\n\r\n").take (p.length + 1) ++
        (List.replicate N 0).drop (pieces.headD []).length) := by
    unfold recvInto
    rw [← List.append_assoc, ← hcut]
  obtain ⟨z, hmemory⟩ := memory_get ((p ++ str "\r\n\r\n").take (p.length + 1) ++
    (List.replicate N 0).drop (pieces.headD []).length)
  rw [← hbuf] at hmemory
  rw [serveConnection_second rfl rfl h0 (by omega) hfirst]
  rcases copyString_second hq (tokens (recvInto (pieces.headD []) (List.replicate N 0))).memory
    (pieces.headD []).length with ⟨-, hend⟩ | ⟨hnone, -⟩
  · rw [hmemory, ended_memory hq (by omega)] at hend
    omega
  · rw [hnone]
    rfl

theorem serve_twelve (hp : IsWord (str " \r\n") p) (hN : 16 + p.length < N)
    (hflat : pieces.flatten = message p) (hr : (pieces.headD []).length = 12) :
    (serveConnection (List.replicate N 0) pieces).map Prod.fst = some (.handler (some p)) ↔
      p.length ≤ (pieces.tail.headD []).length ∧ ((pieces.tail.headD []).length = 7 ∨
        (pieces.tail.headD []).length = 11 ∨ 12 ≤ (pieces.tail.headD []).length) := by
  obtain ⟨hpiece, hsecond⟩ := pieces_eq_take hflat
  have h12 : (str "GETFILE GET ").length = 12 := rfl
  have hcut : pieces.headD [] = str "GETFILE GET " := by
    rw [hpiece, hr, message_eq, ← h12, List.take_left]
  rw [hr, message_eq, ← h12, List.drop_left] at hsecond
  generalize hr₂ : (pieces.tail.headD []).length = r at hsecond
  have hrle : r ≤ p.length + 4 := by
    have h4 : (str "\r\n\r\n").length = 4 := rfl
    have h := List.length_take_le' r (p ++ str "\r\n\r\n")
    rw [← hsecond, hr₂, List.length_append, h4] at h
    exact h
  have hq := (zero_notMem_pieces hp hflat).2
  rw [hsecond] at hq
  have hqlen : ((p ++ str "\r\n\r\n").take r).length = r := by
    rw [← hsecond, hr₂]
  have h0 : 0 ∉ str "GETFILE GET " := by decide
  -- the buffer after the first piece: the two words, then zeros
  have hbuf : recvInto (str "GETFILE GET ") (List.replicate N 0) =
      str "GETFILE GET " ++ List.replicate (N - 12) 0 := by
    unfold recvInto
    rw [List.drop_replicate, h12]
  have hzeros : ∀ b ∈ (List.replicate (N - 12) (0 : Byte)).head?, b = 0 := fun b hb =>
    List.eq_of_mem_replicate (List.mem_of_head? hb)
  have hmemory : (tokens (recvInto (str "GETFILE GET ") (List.replicate N 0))).memory =
      str "GETFILE" ++ [0] ++ (str "GET" ++ [0] ++ List.replicate (N - 12) 0) := by
    rw [hbuf, tokens_get, strtok_end (by decide) hzeros, List.nil_append]
  have hend : Ended ((p ++ str "\r\n\r\n").take r)
      (tokens (recvInto (str "GETFILE GET ") (List.replicate N 0))).memory ↔
        r = 7 ∨ r = 11 ∨ 12 ≤ r := by
    rw [hmemory]
    by_cases hshort : r < 12
    · rw [ended_memory hq (by omega), hqlen]
      omega
    · refine iff_of_true (Or.inr ?_) (by omega)
      rw [hqlen, ← List.append_assoc, List.drop_append, List.drop_eq_nil_of_le (not_lt.mp hshort),
        List.nil_append, List.drop_replicate, List.head?_replicate, if_neg]
      have hlen : (str "GETFILE" ++ [0] ++ (str "GET" ++ [0])).length = 12 := rfl
      omega
  have hfirst : firstDecision (str "GETFILE GET ").length (str "GETFILE GET ")
      (tokens (str "GETFILE GET ")) = none := by
    decide
  rw [serveConnection_second hcut hsecond h0 (by omega) hfirst]
  rcases copyString_second hq (tokens (recvInto (str "GETFILE GET ")
    (List.replicate N 0))).memory (str "GETFILE GET ").length with ⟨hsome, h⟩ | ⟨hnone, h⟩
  · have hlong := hend.mp h
    rw [hsome, Option.map_some, tokens_get, filename_take hp (by omega)]
    simp only [Option.some.injEq, Decision.handler.injEq, List.take_eq_self_iff]
    exact (and_iff_left hlong).symm
  · rw [hnone]
    exact iff_of_false (by simp) fun hacc => h (hend.mpr hacc.2)

end request

/-- A request in pieces, on a zeroed buffer: the handler gets the path exactly if the first piece
ends behind the path, but not one byte behind it, or if it ends in front of the path and the second
one ends behind it and where the buffer has a NUL. -/
theorem handler_iff (p : List Byte) (hp : IsWord (str " \r\n") p) (hlen : 16 + p.length < bufsize)
    (pieces : List (List Byte)) (hflat : pieces.flatten = message p) :
    (serveConnection (List.replicate bufsize 0) pieces).map Prod.fst =
        some (.handler (some p)) ↔
      Accepted p.length pieces := by
  have hne : 0 < p.length := List.length_pos_of_ne_nil hp.ne_nil
  unfold Accepted
  dsimp only
  rcases lt_trichotomy (pieces.headD []).length 12 with h | h | h
  · exact iff_of_false (serve_scheme hlen hflat h) (by omega)
  · rw [serve_twelve hp hlen hflat h]
    omega
  · by_cases hafter : (pieces.headD []).length = 13 + p.length
    · rw [serve_after hp hlen hflat hafter]
      exact iff_of_false (by simp) (by omega)
    · rw [serve_path hp hlen hflat h hafter]
      omega

theorem handler_iff_onePiece :
    (serveConnection (List.replicate bufsize 0) [str "GETFILE GET /a\r\n\r\n"]).map Prod.fst =
      some (.handler (some (str "/a"))) :=
  (handler_iff (str "/a") (by decide) (by decide) [str "GETFILE GET /a\r\n\r\n"]
    (by decide)).mpr (Or.inl ⟨by decide, by decide⟩)

/-- A request cut inside the path: the handler gets its beginning. -/
theorem not_handler_cutPath :
    ¬∀ (p : List Byte) (pieces : List (List Byte)), IsWord (str " \r\n") p →
      16 + p.length < bufsize → (∀ q ∈ pieces, q ≠ []) → pieces.flatten = message p →
      (serveConnection (List.replicate bufsize 0) pieces).map Prod.fst =
        some (.handler (some p)) := by
  intro h
  have hcut := h (str "/abc") [str "GETFILE GET /a", str "bc\r\n\r\n"] (by decide)
    (by decide) (by decide) (by decide)
  have heval : (serveConnection (List.replicate bufsize 0)
      [str "GETFILE GET /a", str "bc\r\n\r\n"]).map Prod.fst =
        some (.handler (some (str "/a"))) := by
    decide +kernel
  rw [heval] at hcut
  exact absurd hcut (by decide)

end OsProjects.Getfile
