import OsProjects.RequestBuffer

/-! # The path given to the handler

When `gfserver_serve` calls its handler the path can be `NULL`: behind a request without a third
token that is not twelve bytes long, or where the second piece brings none.  `handler_path_iff`
says for which connections the server does as it should (`Proper`): for every content of the
buffer and every sequence of pieces. -/

namespace OsProjects.Getfile

/-- The string has scheme `GETFILE` and method `GET`. -/
def BeginsGet (m : List Byte) : Prop :=
  (tokens m).scheme = some (str "GETFILE") ∧ (tokens m).request = some (str "GET")

/-- What the second `recv` leaves in the buffer. -/
def secondBuffer (readData : List Byte) (pieces : List (List Byte)) : List Byte :=
  recvInto (pieces.tail.headD []) (tokens (recvInto (pieces.headD []) readData)).memory

/-- The string that the server splits last: that of the first piece, or of both. -/
def requestString (readData : List Byte) (pieces : List (List Byte)) : List Byte :=
  let s := cstr (recvInto (pieces.headD []) readData)
  match firstDecision (pieces.headD []).length s (tokens (recvInto (pieces.headD []) readData)) with
  | some _ => s
  | none => s ++ cstr (secondBuffer readData pieces)

/-- The connection is answered by `GF_FILE_NOT_FOUND`, or by the handler for a path that is not
empty, in a request that begins with scheme and method. -/
def Proper (readData : List Byte) (pieces : List (List Byte)) : Prop :=
  ∃ d b, serveConnection readData pieces = some (d, b) ∧
    (d = .fileNotFound ∨ ∃ path, d = .handler (some path) ∧ path ≠ [] ∧
      BeginsGet (requestString readData pieces))

/-- The string of the second piece fits behind that of the first one. -/
def SecondFits (readData : List Byte) (pieces : List (List Byte)) : Prop :=
  0 ∈ secondBuffer readData pieces ∧
    (cstr (pieces.headD [])).length + (cstr (secondBuffer readData pieces)).length ≤
      (pieces.headD []).length + (pieces.tail.headD []).length

/-- The condition for `Proper`. -/
def PathReceived (readData : List Byte) (pieces : List (List Byte)) : Prop :=
  let p := pieces.headD []
  let s := cstr p
  let joined := s ++ cstr (secondBuffer readData pieces)
  Ended p readData ∧
    (BeginsGet s → match (tokens s).filename with
      | none => p.length = 12 ∧ SecondFits readData pieces ∧ BeginsGet joined ∧
          (tokens joined).filename ≠ none
      | some path => wantsMore p.length s (str "GETFILE") (str "GET") (some path) = true →
          SecondFits readData pieces)

/-! ### Tokens -/

/-- A request with a path keeps scheme and method when more follows, and has a path then. -/
theorem tokens_append {s : List Byte} (h0 : 0 ∉ s) (hf : (tokens s).filename ≠ none)
    (t : List Byte) :
    (tokens (s ++ t)).scheme = (tokens s).scheme ∧ (tokens (s ++ t)).request = (tokens s).request ∧
      (tokens (s ++ t)).filename ≠ none := by
  unfold tokens at hf ⊢
  dsimp only at hf ⊢
  have hnil : ∀ delims, (strtok delims []).rest = [] ∧ (strtok delims []).token = none :=
    fun _ => ⟨rfl, rfl⟩
  have hr₂ : (strtok (str " ") (strtok (str " ") s).rest).rest ≠ [] := by
    intro h
    rw [h] at hf
    exact hf (hnil _).2
  have hr₁ : (strtok (str " ") s).rest ≠ [] := by
    intro h
    rw [h] at hr₂
    exact hr₂ (hnil _).1
  obtain ⟨hscheme, hrest₁⟩ := strtok_append_rest h0 hr₁ t
  obtain ⟨hrequest, hrest₂⟩ := strtok_append_rest (rest_notMem h0) hr₂ t
  rw [hrest₁, hrest₂]
  exact ⟨hscheme, hrequest, token_append_ne_none (rest_notMem (rest_notMem h0)) hf t⟩

theorem filename_ne_nil {m path : List Byte} (h : (tokens m).filename = some path) : path ≠ [] := by
  unfold tokens at h
  dsimp only at h
  rw [strtok_token] at h
  split at h
  · cases h
  · next hne =>
      rw [← Option.some.inj h]
      exact hne

/-! ### The decision -/

theorem firstDecision_of_not {s : List Byte} (h : ¬BeginsGet s) (readlen : ℕ) (dataread : List Byte) :
    firstDecision readlen dataread (tokens s) = some .fileNotFound := by
  unfold firstDecision
  unfold BeginsGet at h
  cases hs : (tokens s).scheme with
  | none => rfl
  | some scheme =>
      cases hr : (tokens s).request with
      | none => rfl
      | some request =>
          rw [hs, hr] at h
          dsimp only
          apply if_pos
          by_contra hne
          obtain ⟨h₁, h₂⟩ := not_or.mp hne
          exact h ⟨congrArg some (not_not.mp h₁), congrArg some (not_not.mp h₂)⟩

theorem firstDecision_of_get {s : List Byte} (h : BeginsGet s) (readlen : ℕ) (dataread : List Byte) :
    firstDecision readlen dataread (tokens s) =
      if wantsMore readlen dataread (str "GETFILE") (str "GET") (tokens s).filename then none
      else some (.handler (tokens s).filename) := by
  obtain ⟨hs, hr⟩ := h
  unfold firstDecision
  rw [hs, hr]
  simp

section connection
variable {readData : List Byte} {pieces : List (List Byte)} {d : Decision}

theorem serve_decided (hE : Ended (pieces.headD []) readData)
    (hd : firstDecision (pieces.headD []).length (cstr (pieces.headD []))
      (tokens (cstr (pieces.headD []))) = some d) :
    (∃ b, serveConnection readData pieces = some (d, b)) ∧
      requestString readData pieces = cstr (pieces.headD []) := by
  obtain ⟨_, hs⟩ := cstr_recvInto hE
  have hcopy := (copyString_recvInto (le_refl (pieces.headD []).length)).mpr hE
  unfold serveConnection requestString
  simp only [hcopy, hs, firstDecision_cstr _ _ (recvInto (pieces.headD []) readData), hd]
  exact ⟨⟨_, rfl⟩, trivial⟩

theorem serve_undecided (hE : Ended (pieces.headD []) readData)
    (hd : firstDecision (pieces.headD []).length (cstr (pieces.headD []))
      (tokens (cstr (pieces.headD []))) = none) :
    (SecondFits readData pieces → ∃ b, serveConnection readData pieces =
      some (.handler (tokens (requestString readData pieces)).filename, b)) ∧
    (¬SecondFits readData pieces → serveConnection readData pieces = none) ∧
      requestString readData pieces =
        cstr (pieces.headD []) ++ cstr (secondBuffer readData pieces) := by
  obtain ⟨_, hs⟩ := cstr_recvInto hE
  have hcopy := (copyString_recvInto (le_refl (pieces.headD []).length)).mpr hE
  have hlen := cstr_length_le (pieces.headD [])
  have hreq : requestString readData pieces =
      cstr (pieces.headD []) ++ cstr (secondBuffer readData pieces) := by
    unfold requestString
    simp only [hs, firstDecision_cstr _ _ (recvInto (pieces.headD []) readData), hd]
  refine ⟨fun hfit => ?_, fun hfit => ?_, hreq⟩
  · obtain ⟨hmem, hle⟩ := hfit
    have hsecond : copyString ((pieces.headD []).length + (pieces.tail.headD []).length -
        (cstr (pieces.headD [])).length) (secondBuffer readData pieces) =
          some (cstr (secondBuffer readData pieces)) := by
      unfold copyString
      rw [if_pos ⟨hmem, by omega⟩]
    rw [hreq]
    unfold secondBuffer at hsecond ⊢
    unfold serveConnection
    simp only [hcopy, firstDecision_cstr _ _ (recvInto (pieces.headD []) readData), hs, hd, hsecond]
    exact ⟨_, rfl⟩
  · have hsecond : copyString ((pieces.headD []).length + (pieces.tail.headD []).length -
        (cstr (pieces.headD [])).length) (secondBuffer readData pieces) = none := by
      unfold copyString
      rw [if_neg]
      rintro ⟨hmem, hle⟩
      exact hfit ⟨hmem, by omega⟩
    unfold secondBuffer at hsecond
    unfold serveConnection
    simp only [hcopy, firstDecision_cstr _ _ (recvInto (pieces.headD []) readData), hs, hd, hsecond]

theorem ended_of_serve {r : Decision × List Byte} (h : serveConnection readData pieces = some r) :
    Ended (pieces.headD []) readData := by
  by_contra hE
  have h0 : 0 ∉ pieces.headD [] := fun h0 => hE (.inl h0)
  unfold serveConnection at h
  simp only [copyString_eq_none h0 hE, reduceCtorEq] at h

theorem proper_handler {m b : List Byte}
    (h : serveConnection readData pieces = some (.handler (tokens m).filename, b)) :
    Proper readData pieces ↔
      BeginsGet (requestString readData pieces) ∧ (tokens m).filename ≠ none := by
  constructor
  · rintro ⟨d, b', hd, hprop⟩
    obtain ⟨rfl, rfl⟩ := Prod.mk.inj (Option.some.inj (h.symm.trans hd))
    obtain hnot | ⟨path, hpath, _, hbegins⟩ := hprop
    · cases hnot
    · exact ⟨hbegins, by rw [Decision.handler.inj hpath]; simp⟩
  · rintro ⟨hbegins, hne⟩
    obtain ⟨path, hpath⟩ := Option.ne_none_iff_exists'.mp hne
    exact ⟨_, b, h, .inr ⟨path, by rw [hpath], filename_ne_nil hpath, hbegins⟩⟩

theorem proper_decided (hE : Ended (pieces.headD []) readData)
    (hget : BeginsGet (cstr (pieces.headD [])))
    (hmore : ¬wantsMore (pieces.headD []).length (cstr (pieces.headD [])) (str "GETFILE")
      (str "GET") (tokens (cstr (pieces.headD []))).filename = true) :
    Proper readData pieces ↔ (tokens (cstr (pieces.headD []))).filename ≠ none := by
  have hfirst := firstDecision_of_get hget (pieces.headD []).length (cstr (pieces.headD []))
  rw [if_neg hmore] at hfirst
  obtain ⟨⟨b, hserve⟩, hreq⟩ := serve_decided hE hfirst
  rw [proper_handler hserve, hreq]
  exact and_iff_right hget

theorem proper_undecided (hE : Ended (pieces.headD []) readData)
    (hget : BeginsGet (cstr (pieces.headD [])))
    (hmore : wantsMore (pieces.headD []).length (cstr (pieces.headD [])) (str "GETFILE")
      (str "GET") (tokens (cstr (pieces.headD []))).filename = true) :
    Proper readData pieces ↔ SecondFits readData pieces ∧
      BeginsGet (cstr (pieces.headD []) ++ cstr (secondBuffer readData pieces)) ∧
      (tokens (cstr (pieces.headD []) ++ cstr (secondBuffer readData pieces))).filename ≠ none := by
  have hfirst := firstDecision_of_get hget (pieces.headD []).length (cstr (pieces.headD []))
  rw [if_pos hmore] at hfirst
  obtain ⟨hserve, hover, hreq⟩ := serve_undecided hE hfirst
  rw [← hreq]
  by_cases hfit : SecondFits readData pieces
  · obtain ⟨b, hserve⟩ := hserve hfit
    rw [proper_handler hserve]
    exact (and_iff_right hfit).symm
  · refine iff_of_false ?_ fun h => hfit h.1
    rintro ⟨d, b, hd, _⟩
    rw [hover hfit] at hd
    cases hd

theorem proper_withoutPath (hE : Ended (pieces.headD []) readData)
    (hget : BeginsGet (cstr (pieces.headD [])))
    (hf : (tokens (cstr (pieces.headD []))).filename = none) :
    Proper readData pieces ↔ (pieces.headD []).length = 12 ∧ SecondFits readData pieces ∧
      BeginsGet (cstr (pieces.headD []) ++ cstr (secondBuffer readData pieces)) ∧
      (tokens (cstr (pieces.headD []) ++ cstr (secondBuffer readData pieces))).filename ≠ none := by
  have hwants : wantsMore (pieces.headD []).length (cstr (pieces.headD [])) (str "GETFILE")
      (str "GET") (tokens (cstr (pieces.headD []))).filename = true ↔
        (pieces.headD []).length = 12 := by
    rw [hf]
    exact decide_eq_true_iff
  by_cases h12 : (pieces.headD []).length = 12
  · rw [and_iff_right h12]
    exact proper_undecided hE hget (hwants.mpr h12)
  · rw [proper_decided hE hget (mt hwants.mp h12)]
    exact iff_of_false (fun h => h hf) fun h => h12 h.1

theorem proper_withPath {path : List Byte} (hE : Ended (pieces.headD []) readData)
    (hget : BeginsGet (cstr (pieces.headD [])))
    (hf : (tokens (cstr (pieces.headD []))).filename = some path) :
    Proper readData pieces ↔
      (wantsMore (pieces.headD []).length (cstr (pieces.headD [])) (str "GETFILE") (str "GET")
        (some path) = true → SecondFits readData pieces) := by
  have hfound : (tokens (cstr (pieces.headD []))).filename ≠ none := by
    rw [hf]
    exact Option.some_ne_none path
  rw [← hf]
  by_cases hmore : wantsMore (pieces.headD []).length (cstr (pieces.headD [])) (str "GETFILE")
      (str "GET") (tokens (cstr (pieces.headD []))).filename = true
  · have h0 : 0 ∉ cstr (pieces.headD []) := fun h => mem_cstr h rfl
    obtain ⟨hscheme, hrequest, hne⟩ :=
      tokens_append h0 hfound (cstr (secondBuffer readData pieces))
    have hjoined : BeginsGet (cstr (pieces.headD []) ++ cstr (secondBuffer readData pieces)) :=
      ⟨hscheme.trans hget.1, hrequest.trans hget.2⟩
    rw [forall_prop_of_true hmore, proper_undecided hE hget hmore]
    exact and_iff_left ⟨hjoined, hne⟩
  · rw [proper_decided hE hget hmore]
    exact iff_of_true hfound fun h => absurd h hmore

end connection

/-- **The handler gets a path**, or the request is refused, exactly if the string in the buffer
ends with the first piece and, for a request with scheme and method: without a path in it the piece
has twelve bytes and the second one brings a path and fits, and with one, the second piece fits if
it is read. -/
theorem handler_path_iff (readData : List Byte) (pieces : List (List Byte)) :
    Proper readData pieces ↔ PathReceived readData pieces := by
  unfold PathReceived
  dsimp only
  by_cases hE : Ended (pieces.headD []) readData
  · rw [and_iff_right hE]
    by_cases hget : BeginsGet (cstr (pieces.headD []))
    · rw [forall_prop_of_true hget]
      cases hf : (tokens (cstr (pieces.headD []))).filename with
      | none => exact proper_withoutPath hE hget hf
      | some path => exact proper_withPath hE hget hf
    · have hfirst := firstDecision_of_not hget (pieces.headD []).length (cstr (pieces.headD []))
      obtain ⟨⟨b, hserve⟩, _⟩ := serve_decided hE hfirst
      exact iff_of_true ⟨_, b, hserve, .inl rfl⟩ fun h => absurd h hget
  · refine iff_of_false ?_ fun h => hE h.1
    rintro ⟨d, b, hserve, _⟩
    exact hE (ended_of_serve hserve)

/-- A request without a path, in a buffer of NULs. -/
theorem not_proper_withoutPath :
    ¬ ∀ readData pieces : List _, Proper readData pieces := by
  intro h
  obtain ⟨d, b, hserve, hprop⟩ := h (List.replicate bufsize 0) [str "GETFILE GET"]
  have hnull : (serveConnection (List.replicate bufsize 0) [str "GETFILE GET"]).map Prod.fst =
      some (.handler none) := by decide +kernel
  rw [hserve] at hnull
  obtain rfl := Option.some.inj hnull
  obtain hnot | ⟨path, hpath, _⟩ := hprop
  · cases hnot
  · cases hpath

end OsProjects.Getfile
