import OsProjects.RequestRoundTrip

/-! # Requests one after the other

The buffer of `gfserver_serve` over a whole run: what `malloc` and the requests so far have left in
it decides whether the next one can be copied.

* `serveConnection_message` — a whole request in any buffer: it is served, or the copy of the
  string runs over.
* `remembers_memory` — of the earlier requests only the lengths of their paths count: where they
  leave a NUL is a function of these (`FitsBehind`).
* `requests_served_iff` — the sequences of requests that are all served. -/

namespace OsProjects.Getfile

/-- A path of `n` bytes behind earlier ones, the last of them first: the last longer one ends where
the new request does. If none is longer, the buffer has had a NUL there from the beginning. -/
def FitsBehind (fresh : List Byte) : List ℕ → ℕ → Prop
  | [], n => fresh[16 + n]? = some 0
  | k :: earlier, n => if n < k then k = n + 4 else FitsBehind fresh earlier n

/-- Every path fits behind those before it. -/
def AllFit (fresh : List Byte) (earlier : List ℕ) : List ℕ → Prop
  | [] => True
  | n :: ns => FitsBehind fresh earlier n ∧ AllFit fresh (n :: earlier) ns

/-- The buffer has a NUL where a request ends, exactly if it fits behind the earlier ones. -/
def Remembers (fresh : List Byte) (earlier : List ℕ) (readData : List Byte) : Prop :=
  ∀ n, readData[16 + n]? = some 0 ↔ FitsBehind fresh earlier n

/-! ### One request -/

section message
variable {p : List Byte}

theorem ended_message (hp : IsWord (str " \r\n") p) (readData : List Byte) :
    Ended (message p) readData ↔ readData[16 + p.length]? = some 0 := by
  unfold Ended
  rw [or_iff_right (zero_notMem_message hp), List.head?_drop, message_length, Nat.add_comm]

/-- A request that arrives whole, whatever comes behind it. -/
theorem serveConnection_message (hp : IsWord (str " \r\n") p) (readData : List Byte)
    (later : List (List Byte)) :
    serveConnection readData (message p :: later) =
      if readData[16 + p.length]? = some 0 then
        some (.handler (some p), (tokens (recvInto (message p) readData)).memory)
      else none := by
  have h0 := zero_notMem_message hp
  by_cases hE : Ended (message p) readData
  · have hcopy := (copyString_recvInto (le_refl (message p).length)).mpr hE
    have hd : firstDecision (message p).length (cstr (message p))
        (tokens (recvInto (message p) readData)) = some (.handler (some p)) := by
      have h := firstDecision_message hp (message p).length []
      rw [List.append_nil] at h
      rw [firstDecision_cstr, (cstr_recvInto hE).2, cstr_of_notMem h0]
      exact h
    rw [if_pos ((ended_message hp readData).mp hE)]
    unfold serveConnection
    simp only [List.headD_cons, hcopy, hd]
  · rw [if_neg fun h => hE ((ended_message hp readData).mpr h)]
    unfold serveConnection
    simp only [List.headD_cons, copyString_eq_none h0 hE]

theorem memory_message (hp : IsWord (str " \r\n") p) (readData : List Byte) :
    (tokens (recvInto (message p) readData)).memory = str "GETFILE" ++ [0] ++ (str "GET" ++ [0] ++
      (p ++ 0 :: (str "\n\r\n" ++ readData.drop (16 + p.length)))) := by
  have hm : recvInto (message p) readData = str "GETFILE GET " ++
      (p ++ 13 :: (str "\n\r\n" ++ readData.drop (16 + p.length))) := by
    unfold recvInto
    rw [message_length, message_eq, List.append_assoc, List.append_assoc, Nat.add_comm]
    rfl
  rw [hm, tokens_get, strtok_delim hp _ (by decide) (by decide), List.append_assoc p]
  rfl

theorem memory_getElem (hp : IsWord (str " \r\n") p) (readData : List Byte) (n : ℕ) :
    (tokens (recvInto (message p) readData)).memory[16 + n]? = some 0 ↔
      if n < p.length then p.length = n + 4 else readData[16 + n]? = some 0 := by
  have h12 : (str "GETFILE" ++ [0] ++ (str "GET" ++ [0])).length = 12 := rfl
  rw [memory_message hp, ← List.append_assoc (str "GETFILE" ++ [0]),
    List.getElem?_append_right (by omega), h12, show 16 + n - 12 = n + 4 by omega]
  by_cases hin : n + 4 < p.length
  · -- inside of the path, which has no NUL
    rw [List.getElem?_append_left hin, if_pos (by omega), List.getElem?_eq_getElem hin]
    refine iff_of_false (fun h => hp.zero_notMem ?_) (by omega)
    rw [← Option.some.inj h]
    exact List.getElem_mem hin
  · rw [List.getElem?_append_right (by omega)]
    by_cases hlt : n < p.length
    · -- at the end of the path, or in the rest of the header
      rw [if_pos hlt]
      obtain hk | hk | hk | hk : n + 4 - p.length = 0 ∨ n + 4 - p.length = 1 ∨
          n + 4 - p.length = 2 ∨ n + 4 - p.length = 3 := by omega
      · rw [hk]
        exact iff_of_true rfl (by omega)
      · rw [hk]
        exact iff_of_false (by simp [str]) (by omega)
      · rw [hk]
        exact iff_of_false (by simp [str]) (by omega)
      · rw [hk]
        exact iff_of_false (by simp [str]) (by omega)
    · have h3 : (str "\n\r\n").length = 3 := rfl
      rw [if_neg hlt, show n + 4 - p.length = n - p.length + 3 + 1 by omega,
        List.getElem?_cons_succ, List.getElem?_append_right (by omega), h3, Nat.add_sub_cancel,
        List.getElem?_drop, show 16 + p.length + (n - p.length) = 16 + n by omega]

end message

/-! ### The buffer over a run -/

section run
variable {fresh readData : List Byte} {earlier : List ℕ}

/-- One more request. -/
theorem remembers_memory {p : List Byte} (hp : IsWord (str " \r\n") p)
    (h : Remembers fresh earlier readData) :
    Remembers fresh (p.length :: earlier) (tokens (recvInto (message p) readData)).memory := by
  intro n
  rw [memory_getElem hp, FitsBehind]
  split
  · rfl
  · exact h n

theorem gfserverServe_messages (h : Remembers fresh earlier readData) {paths : List (List Byte)}
    (hpaths : ∀ p ∈ paths, IsWord (str " \r\n") p) :
    (AllFit fresh earlier (paths.map List.length) →
      gfserverServe readData (paths.map fun p => [message p]) =
        some (paths.map fun p => .handler (some p))) ∧
    (¬AllFit fresh earlier (paths.map List.length) →
      gfserverServe readData (paths.map fun p => [message p]) = none) := by
  induction paths generalizing earlier readData with
  | nil => exact ⟨fun _ => rfl, fun hnot => absurd trivial hnot⟩
  | cons p ps ih =>
      have hp := hpaths p List.mem_cons_self
      obtain ⟨hall, hnone⟩ := ih (remembers_memory hp h) fun q hq =>
        hpaths q (List.mem_cons_of_mem _ hq)
      have hfit := h p.length
      simp only [List.map_cons, AllFit, gfserverServe, serveConnection_message hp]
      constructor
      · rintro ⟨hhead, hrest⟩
        simp only [if_pos (hfit.mpr hhead), hall hrest, Option.map_some]
      · intro hnot
        by_cases hhead : readData[16 + p.length]? = some 0
        · simp only [if_pos hhead, hnone fun hrest => hnot ⟨hfit.mp hhead, hrest⟩, Option.map_none]
        · simp only [if_neg hhead]

end run

/-- **A sequence of requests.** From any buffer, requests that each arrive whole are all served with
their paths exactly if every path that is shorter than an earlier one is four bytes shorter than the
last of these, and every other one meets a NUL that was in the buffer from the beginning, as in one
of zeros; otherwise a copy of the buffer runs over. -/
theorem requests_served_iff (readData : List Byte) (paths : List (List Byte))
    (hpaths : ∀ p ∈ paths, IsWord (str " \r\n") p) :
    (gfserverServe readData (paths.map fun p => [message p]) =
        some (paths.map fun p => .handler (some p)) ↔ AllFit readData [] (paths.map List.length)) ∧
    (gfserverServe readData (paths.map fun p => [message p]) = none ↔
      ¬AllFit readData [] (paths.map List.length)) := by
  have hfresh : Remembers readData [] readData := fun _ => Iff.rfl
  obtain ⟨hall, hnone⟩ := gfserverServe_messages hfresh hpaths
  by_cases hfit : AllFit readData [] (paths.map List.length)
  · rw [hall hfit]
    exact ⟨iff_of_true rfl hfit, iff_of_false (by simp) (not_not_intro hfit)⟩
  · rw [hnone hfit]
    exact ⟨iff_of_false (by simp) hfit, iff_of_true rfl hfit⟩

theorem requests_served_iff_three :
    gfserverServe (List.replicate bufsize 0) ([str "/abcde", str "/a"].map fun p => [message p]) =
        some [.handler (some (str "/abcde")), .handler (some (str "/a"))] ∧
      gfserverServe (List.replicate bufsize 0)
        ([str "/abcde", str "/a", str "/ab"].map fun p => [message p]) = none := by
  refine ⟨(requests_served_iff (List.replicate bufsize 0) [str "/abcde", str "/a"]
      (by decide)).1.mpr ?_,
    (requests_served_iff (List.replicate bufsize 0) [str "/abcde", str "/a", str "/ab"]
      (by decide)).2.mpr ?_⟩
  · exact ⟨List.getElem?_replicate_of_lt (by decide), rfl, trivial⟩
  · rintro ⟨_, _, hlast, _⟩
    have hends : (str "/abcde").length = (str "/ab").length + 4 := hlast
    exact absurd hends (by decide)

end OsProjects.Getfile
