import OsProjects.RequestCuts

/-! # A request in one piece, behind earlier ones

The client's message arrives whole in a buffer that keeps the bytes of earlier connections, with
the NULs that `strtok` has written between them.

* `firstDecision_message` — whatever bytes stand behind the message, its tokens and the marker lead
  to the handler with the path: the string behind the path is four bytes long only if it is the end
  of the header.
* `request_roundTrip_iff` — but the string is first copied to where there is room for the message
  alone: the connection is served exactly if a NUL stands right behind the message. -/

namespace OsProjects.Getfile

/-- One `recv` of `m` leads to the handler with `path`: the string in the buffer fits into its copy,
it is not refused, no second piece is asked for, and so it stays for every later piece. -/
def HandledAtOnce (readData m path : List Byte) : Prop :=
  (∃ dataread, copyString m.length (recvInto m readData) = some dataread ∧
    firstDecision m.length dataread (tokens (recvInto m readData)) =
      some (.handler (some path))) ∧
  ∀ later, (serveConnection readData (m :: later)).map Prod.fst = some (.handler (some path))

theorem serveConnection_decided {readData m dataread : List Byte} {d : Decision}
    (hcopy : copyString m.length (recvInto m readData) = some dataread)
    (hd : firstDecision m.length dataread (tokens (recvInto m readData)) = some d)
    (later : List (List Byte)) : (serveConnection readData (m :: later)).map Prod.fst = some d := by
  unfold serveConnection
  simp only [List.headD_cons, hcopy, hd, Option.map_some]

section message
variable {p : List Byte}

theorem filename_message (hp : IsWord (str " \r\n") p) (t : List Byte) :
    (strtok (str " \r\n") (p ++ str "\r\n\r\n" ++ t)).token = some p := by
  have hcr : p ++ str "\r\n\r\n" ++ t = p ++ 13 :: (str "\n\r\n" ++ t) := List.append_assoc _ _ _
  rw [hcr, strtok_delim hp _ (by decide) (by decide)]

/-- What the client sends leads to the handler with the path, also where stale bytes are taken for
the rest of the string. -/
theorem firstDecision_message (hp : IsWord (str " \r\n") p) (readlen : ℕ) (t : List Byte) :
    firstDecision readlen (message p ++ t) (tokens (message p ++ t)) =
      some (.handler (some p)) := by
  have h7 : (str "GETFILE").length = 7 := rfl
  have h3 : (str "GET").length = 3 := rfl
  have h12 : (str "GETFILE GET ").length = 12 := rfl
  have h4 : (str "\r\n\r\n").length = 4 := rfl
  have hm : message p ++ t = str "GETFILE GET " ++ (p ++ str "\r\n\r\n" ++ t) := by
    rw [message_eq, List.append_assoc]
  have hmarker : (message p ++ t).drop
      ((str "GETFILE").length + (str "GET").length + p.length + 2) = str "\r\n\r\n" ++ t := by
    have hlen : (str "GETFILE").length + (str "GET").length + p.length + 2 =
        (str "GETFILE GET " ++ p).length := by
      rw [List.length_append, h7, h3, h12]
      omega
    rw [hlen, hm, List.append_assoc, ← List.append_assoc, List.drop_left]
  -- four bytes or more are behind the path, and four only without stale ones
  have hwants : wantsMore readlen (message p ++ t) (str "GETFILE") (str "GET") (some p) = false := by
    unfold wantsMore
    simp only [hmarker, List.length_append, h4]
    cases t with
    | nil => decide
    | cons b t =>
        have hone : 4 + (t.length + 1) ≠ 1 := by omega
        simp [hone]
  unfold firstDecision
  simp only [hm, tokens_get, filename_message hp]
  rw [if_neg (by decide), ← hm, hwants]
  rfl

/-- **Request round trip.** A message that arrives whole is served with its path, without a second
`recv`, exactly if the byte behind it in the buffer is a NUL. -/
theorem request_roundTrip_iff (readData p : List Byte) (hp : IsWord (str " \r\n") p) :
    HandledAtOnce readData (message p) p ↔
      (readData.drop (message p).length).head? = some 0 := by
  have h0 := zero_notMem_message hp
  have hended : Ended (message p) readData ↔ (readData.drop (message p).length).head? = some 0 :=
    or_iff_right h0
  rw [← hended]
  constructor
  · rintro ⟨⟨dataread, hcopy, _⟩, _⟩
    by_contra hstale
    rw [copyString_eq_none h0 hstale] at hcopy
    cases hcopy
  · intro hE
    have hcopy := (copyString_recvInto (le_refl (message p).length)).mpr hE
    have hd : firstDecision (message p).length (cstr (message p))
        (tokens (recvInto (message p) readData)) = some (.handler (some p)) := by
      have h := firstDecision_message hp (message p).length []
      rw [List.append_nil] at h
      rw [firstDecision_cstr, (cstr_recvInto hE).2, cstr_of_notMem h0]
      exact h
    exact ⟨⟨_, hcopy, hd⟩, serveConnection_decided hcopy hd⟩

end message

theorem request_roundTrip_iff_zeros :
    IsWord (str " \r\n") (str "/a") ∧
      HandledAtOnce (List.replicate bufsize 0) (message (str "/a")) (str "/a") :=
  ⟨by decide, (request_roundTrip_iff _ _ (by decide)).mpr (by decide +kernel)⟩

/-- A short path behind a longer one. -/
theorem not_handledAtOnce_shorter :
    ¬∀ (earlier : List (List Byte)) (d : Decision) (readData p : List Byte),
      serveConnection (List.replicate bufsize 0) earlier = some (d, readData) →
      IsWord (str " \r\n") p → 16 + p.length < bufsize → HandledAtOnce readData (message p) p := by
  intro h
  have hfirst : ((serveConnection (List.replicate bufsize 0)
      [message (str "/longer")]).bind fun r =>
        copyString (message (str "/a")).length (recvInto (message (str "/a")) r.2)) = none ∧
      (serveConnection (List.replicate bufsize 0) [message (str "/longer")]).isSome := by
    decide +kernel
  obtain ⟨hnone, hsome⟩ := hfirst
  obtain ⟨⟨d, readData⟩, hserve⟩ := Option.isSome_iff_exists.mp hsome
  rw [hserve] at hnone
  obtain ⟨⟨dataread, hcopy, _⟩, _⟩ :=
    h [message (str "/longer")] d readData (str "/a") hserve (by decide) (by decide)
  rw [Option.bind_some, hcopy] at hnone
  cases hnone

end OsProjects.Getfile
