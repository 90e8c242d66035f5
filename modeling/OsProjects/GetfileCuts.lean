import OsProjects.GetfileRuns

/-! # Cutting a response into pieces

`gfc_perform` reads the header out of the first piece alone, so its answer depends on the first
piece and, after an `OK`, on where the piece boundaries fall in the body.

* `gfcPerform_answer` gives the answer in terms of the reading of the first piece (`reading`) and
  of the boundary at which the body ends (`bodyEnd`).
* `same_answer_iff` — two cuttings of one response get the same answer exactly when their first
  pieces are read alike and, after an `OK`, the body ends at the same byte (`SameReading`). -/

namespace OsProjects.Getfile

/-! ### Reading the first piece -/

/-- What the first piece says: a null pointer or a wrapped length (`undefined`), one of the
refusals, a status without a body, or a length with its whole header. -/
inductive Reading where
  | undefined
  | refused
  | fileNotFound
  | error
  | announced (filelength : List Byte)
deriving DecidableEq, Repr

/-- What is parsed, with the length of the piece. -/
def Parsed.reading (p : List Byte) : Parsed → Reading
  | .null => .undefined
  | .short | .refused => .refused
  | .fileNotFound => .fileNotFound
  | .error => .error
  | .ok n => if p.length < n.length + 15 then .undefined else .announced n

/-- The reading of a first piece, with `heap` behind its copy. -/
def reading (heap p : List Byte) : Reading := (parse heap p).reading p

/-- The numbers of body bytes at the piece boundaries, `d` at the first one. -/
def totals (d : ℕ) : List (List Byte) → List ℕ
  | [] => [d]
  | p :: ps => d :: totals (d + p.length) ps

/-! ### The answer -/

/-- What a run of `gfc_perform` gives its caller. -/
structure Answer where
  ret : ℤ
  status : Gfstatus
  filelength : ℕ
  bytesOfFileReceived : ℕ
  body : List Byte
deriving DecidableEq, Repr

def answer (r : ℤ × Client) : Answer :=
  ⟨r.1, r.2.gfr.status, r.2.gfr.filelength, r.2.gfr.bytesOfFileReceived, r.2.writes.flatten⟩

/-- The answer after an `OK` with length `N`, when the body ends after `e` of the bytes `body`. -/
def okAnswer (N e : ℕ) (body : List Byte) : Answer :=
  ⟨if e % 2 ^ 64 < N then -1 else 0, .ok, N, e % 2 ^ 64, body.take e⟩

theorem bodyEnd_le (N d : ℕ) (ps : List (List Byte)) : bodyEnd N d ps ≤ d + ps.flatten.length := by
  induction ps generalizing d with
  | nil => simp [bodyEnd]
  | cons p ps ih =>
      have hle := ih (d + p.length)
      unfold bodyEnd
      split
      · omega
      · simp only [List.flatten_cons, List.length_append]
        omega

/-! ### The answer in terms of the reading -/

/-- The end of the body after a first piece `p` that announces `n`. -/
def bodyLength (n p : List Byte) (ps : List (List Byte)) : ℕ :=
  bodyEnd (sizeT (atol n)) (p.length - (n.length + 15)) ps

/-- The answer that the reading of the first piece leads to. -/
def readAnswer (heap : List Byte) (gfr : Request) : List (List Byte) → Option Answer
  | [] => some ⟨if 0 < gfr.filelength then -1 else 0, gfr.status, gfr.filelength,
      gfr.bytesOfFileReceived, []⟩
  | p :: ps =>
      match reading heap p with
      | .undefined => none
      | .refused => some ⟨-1, .invalid, gfr.filelength, 0, []⟩
      | .fileNotFound =>
          some ⟨0, .fileNotFound, gfr.filelength, gfr.bytesOfFileReceived, []⟩
      | .error => some ⟨0, .error, gfr.filelength, gfr.bytesOfFileReceived, []⟩
      | .announced n =>
          some (okAnswer (sizeT (atol n)) (bodyLength n p ps)
            ((p :: ps).flatten.drop (n.length + 15)))

section answers
variable {heap p n : List Byte} {gfr : Request} {ps : List (List Byte)}

theorem parse_of_announced (h : reading heap p = .announced n) :
    parse heap p = .ok n ∧ n.length + 15 ≤ p.length := by
  unfold reading at h
  cases hparse : parse heap p with
  | ok m =>
      rw [hparse, Parsed.reading] at h
      split at h
      · cases h
      · obtain rfl := Reading.announced.inj h
        exact ⟨rfl, by omega⟩
  | _ =>
      rw [hparse] at h
      cases h

theorem reading_of_ok (h : parse heap p = .ok n) (hlen : n.length + 15 ≤ p.length) :
    reading heap p = .announced n := by
  rw [reading, h, Parsed.reading, if_neg (by omega)]

theorem writes_pieces (ps : List (List Byte)) :
    ((ps.map Recv.data).map Recv.call).filterMap Callback.content = ps := by
  induction ps with
  | nil => rfl
  | cons p ps ih =>
      have hcall : (Recv.data p).call.content = some p := congrArg some (List.take_length)
      rw [List.map_cons, List.map_cons, List.filterMap_cons_some hcall, ih]

/-- What is written behind a whole header is the part of the body as long as the sizes say. -/
theorem writes_flatten {t : Client} {k : ℕ} (hlen : n.length + 15 ≤ p.length)
    (hcalls : t.calls = .write p (n.length + 15) (filecontentlength p n) ::
      ((ps.take k).map .data).map Recv.call) :
    t.writes.flatten = ((p :: ps).flatten.drop (n.length + 15)).take (writtenSize t.calls) := by
  have hsize := filecontentlength_of_le hlen
  have hwritten : writtenSize t.calls =
      (p.drop (n.length + 15) ++ (ps.take k).flatten).length := by
    rw [hcalls, ← List.singleton_append, writtenSize_append, writtenSize_write, hsize,
      writtenSize_pieces, List.length_append]
  have hwrites : t.writes = p.drop (n.length + 15) :: ps.take k := by
    rw [Client.writes, hcalls, List.filterMap_cons_some (first_content hlen), writes_pieces]
  have hbody : (p :: ps).flatten.drop (n.length + 15) =
      p.drop (n.length + 15) ++ (ps.take k).flatten ++ (ps.drop k).flatten := by
    rw [List.flatten_cons, List.drop_append_of_le_length hlen, List.append_assoc,
      ← List.flatten_append, List.take_append_drop]
  rw [hwrites, hbody, hwritten, List.take_left, List.flatten_cons]

/-- A first piece that ends the run, apart from the calls of `headerfunc`. -/
theorem gfcPerform_returned {ret : ℤ} {gfr' : Request} {calls : List Callback} (hp : p ≠ [])
    (hcalls : ∀ call ∈ calls, call.isHeader = true)
    (h : headerIteration heap p (start gfr) = some (.returned ret ⟨gfr', false, 0, calls⟩))
    (rs : List Recv) :
    gfcPerform heap gfr (.data p :: rs) = some (ret, ⟨gfr', false, 0, calls⟩) :=
  gfcPerform_eq_some.mpr ⟨perform_returned hp h rs, inPiece_of_isHeader hcalls⟩

theorem answer_returned (ret : ℤ) (gfr' : Request) {calls : List Callback}
    (hcalls : ∀ call ∈ calls, call.isHeader = true) :
    answer (ret, ⟨gfr', false, 0, calls⟩) =
      ⟨ret, gfr'.status, gfr'.filelength, gfr'.bytesOfFileReceived, []⟩ := by
  unfold answer
  rw [writes_of_isHeader (s := ⟨gfr', false, 0, calls⟩) hcalls, List.flatten_nil]

theorem gfcPerform_announced (hp : p ≠ []) (h : reading heap p = .announced n) (gfr : Request)
    (hps : ∀ q ∈ ps, q ≠ []) :
    (gfcPerform heap gfr ((p :: ps).map .data)).map answer =
      some (okAnswer (sizeT (atol n)) (bodyLength n p ps)
        ((p :: ps).flatten.drop (n.length + 15))) := by
  obtain ⟨hparse, hlen⟩ := parse_of_announced h
  obtain ⟨ret, t, hrun, hends⟩ := perform_ends hp hparse gfr hps
  obtain ⟨k, hcalls⟩ := perform_pieces hp hparse hrun
  have hwrites := writes_flatten hlen hcalls
  have hin := (perform_inPiece_iff hp hparse hrun).mpr hlen
  rw [filecontentlength_of_le hlen, List.length_drop] at hends
  rw [gfcPerform_eq_some.mpr ⟨hrun, hin⟩, Option.map_some, answer, hends.ret, hends.status,
    hends.filelength, hends.bytesOfFileReceived, hwrites, hends.written]
  rfl

/-- A length that wraps around is given to `writefunc`. -/
theorem gfcPerform_wrapped (hp : p ≠ []) (h : parse heap p = .ok n)
    (hlen : p.length < n.length + 15) (gfr : Request) (ps : List (List Byte)) :
    gfcPerform heap gfr ((p :: ps).map .data) = none := by
  rw [Option.eq_none_iff_forall_ne_some]
  rintro ⟨ret, t⟩ hrun
  obtain ⟨hrun, hin⟩ := gfcPerform_eq_some.mp hrun
  have hle := (perform_inPiece_iff hp h hrun).mp hin
  omega

/-- The answer of `gfc_perform`. -/
theorem gfcPerform_answer (heap : List Byte) (gfr : Request) (P : List (List Byte))
    (hP : ∀ p ∈ P, p ≠ []) :
    (gfcPerform heap gfr (P.map .data)).map answer = readAnswer heap gfr P := by
  cases P with
  | nil => rfl
  | cons p ps =>
      obtain ⟨hp, hps⟩ := List.forall_mem_cons.mp hP
      obtain ⟨calls, hcalls, hiter⟩ := headerIteration_parse heap p gfr
      rw [readAnswer]
      cases hparse : parse heap p with
      | null =>
          rw [gfcPerform, List.map_cons, perform_null hp hparse, reading, hparse]
          rfl
      | short | refused | fileNotFound | error =>
          simp only [hparse] at hiter
          rw [List.map_cons, gfcPerform_returned hp hcalls hiter, Option.map_some,
            answer_returned _ _ hcalls, reading, hparse]
          rfl
      | ok n =>
          by_cases hlen : n.length + 15 ≤ p.length
          · have hread := reading_of_ok hparse hlen
            rw [gfcPerform_announced hp hread gfr hps, hread]
          · have hlen := not_le.mp hlen
            rw [gfcPerform_wrapped hp hparse hlen, reading, hparse, Parsed.reading, if_pos hlen]
            rfl

end answers

/-! ### Two cuttings -/

/-- Both runs end, with the same answer. -/
def SameAnswer (a b : Option (ℤ × Client)) : Prop :=
  (a.map answer).isSome ∧ a.map answer = b.map answer

/-- The first boundary behind a piece `p` that has as many body bytes in front of it as `n`
announces. -/
def bodyBoundary (n p : List Byte) (ps : List (List Byte)) : Option ℕ :=
  (totals (p.length - (n.length + 15)) ps).find? (· % 2 ^ 64 = sizeT (atol n))

/-- The stream repeats itself up to the boundaries, from one assumed header end and from the
other. -/
def Repeats (stream : List Byte) (header header' : ℕ) : Option ℕ → Option ℕ → Prop
  | some e, some e' =>
      e = e' ∧ (stream.drop header).take e = (stream.drop header').take e
  | none, none => header = header'
  | _, _ => False

/-- The first pieces are of one kind. If both hold a whole header with a length, the boundary with
that many body bytes in front of it is the same one in both cuttings, or there is none in either.
Where a first piece ends in front of the end of its length, the heap goes on for it and the two
lengths can be different words; then these have to be the same number, and the stream has to repeat
itself. -/
def SameReading (heap₁ heap₂ : List Byte) : List (List Byte) → List (List Byte) → Prop
  | [], [] => True
  | p :: ps, q :: qs =>
      match reading heap₁ p, reading heap₂ q with
      | .announced n, .announced m =>
          if n = m then bodyBoundary n p ps = bodyBoundary m q qs
          else
            sizeT (atol n) = sizeT (atol m) ∧
              Repeats (p :: ps).flatten (n.length + 15) (m.length + 15) (bodyBoundary n p ps)
                (bodyBoundary m q qs)
      | r, r' => r ≠ .undefined ∧ r = r'
  | _, _ => False

/-- The part of the response that goes to `writefunc` after a first piece that announces `n`. -/
def bodyOf (n p : List Byte) (ps : List (List Byte)) : List Byte :=
  ((p :: ps).flatten.drop (n.length + 15)).take (bodyLength n p ps)

section boundary
variable {n m p q : List Byte} {ps qs : List (List Byte)} {N d : ℕ}

theorem bodyEnd_eq_find (N d : ℕ) (ps : List (List Byte)) :
    bodyEnd N d ps =
      ((totals d ps).find? (· % 2 ^ 64 = N)).getD (d + ps.flatten.length) := by
  induction ps generalizing d with
  | nil =>
      by_cases h : d % 2 ^ 64 = N
      · rw [totals, List.find?_cons_of_pos (by rwa [decide_eq_true_iff])]
        rfl
      · rw [totals, List.find?_cons_of_neg (by rwa [decide_eq_true_iff])]
        rfl
  | cons p ps ih =>
      by_cases h : d % 2 ^ 64 = N
      · rw [bodyEnd, if_pos h, totals, List.find?_cons_of_pos (by rwa [decide_eq_true_iff]),
          Option.getD_some]
      · have hlen : d + (p :: ps).flatten.length = d + p.length + ps.flatten.length := by
          rw [List.flatten_cons, List.length_append, Nat.add_assoc]
        rw [bodyEnd, if_neg h, ih, hlen, totals,
          List.find?_cons_of_neg (by rwa [decide_eq_true_iff])]

theorem mem_totals (d : ℕ) (ps : List (List Byte)) : d + ps.flatten.length ∈ totals d ps := by
  induction ps generalizing d with
  | nil => exact List.mem_singleton_self d
  | cons p ps ih =>
      rw [List.flatten_cons, List.length_append, ← Nat.add_assoc]
      exact List.mem_cons_of_mem _ (ih (d + p.length))

theorem bodyLength_le (h : n.length + 15 ≤ p.length) (ps : List (List Byte)) :
    bodyLength n p ps ≤ ((p :: ps).flatten.drop (n.length + 15)).length := by
  have hle := bodyEnd_le (sizeT (atol n)) (p.length - (n.length + 15)) ps
  simp only [List.length_drop, List.flatten_cons, List.length_append]
  unfold bodyLength
  omega

theorem bodyOf_length (h : n.length + 15 ≤ p.length) (ps : List (List Byte)) :
    (bodyOf n p ps).length = bodyLength n p ps := by
  unfold bodyOf
  rw [List.length_take, Nat.min_eq_left (bodyLength_le h ps)]

theorem bodyLength_of_some {e : ℕ} (h : bodyBoundary n p ps = some e) :
    bodyLength n p ps = e ∧ e % 2 ^ 64 = sizeT (atol n) := by
  unfold bodyBoundary at h
  refine ⟨?_, by simpa using List.find?_some h⟩
  rw [bodyLength, bodyEnd_eq_find, h, Option.getD_some]

/-- Without one the body goes on to the end of the stream, and is not of the announced length. -/
theorem bodyOf_of_none (hn : n.length + 15 ≤ p.length) (h : bodyBoundary n p ps = none) :
    bodyOf n p ps = (p :: ps).flatten.drop (n.length + 15) ∧
      (bodyOf n p ps).length % 2 ^ 64 ≠ sizeT (atol n) := by
  have hlen : bodyLength n p ps = p.length - (n.length + 15) + ps.flatten.length := by
    unfold bodyBoundary at h
    rw [bodyLength, bodyEnd_eq_find, h, Option.getD_none]
  constructor
  · unfold bodyOf
    rw [hlen]
    apply List.take_of_length_le
    simp only [List.length_drop, List.flatten_cons, List.length_append]
    omega
  · rw [bodyOf_length hn, hlen]
    simpa using List.find?_eq_none.mp h _ (mem_totals _ ps)

/-- Two answers after an `OK` are the same when the length and the body are. -/
theorem okAnswer_inj (hn : n.length + 15 ≤ p.length) (hm : m.length + 15 ≤ q.length) :
    okAnswer (sizeT (atol n)) (bodyLength n p ps) ((p :: ps).flatten.drop (n.length + 15)) =
        okAnswer (sizeT (atol m)) (bodyLength m q qs) ((q :: qs).flatten.drop (m.length + 15)) ↔
      sizeT (atol n) = sizeT (atol m) ∧ bodyOf n p ps = bodyOf m q qs := by
  constructor
  · intro h
    exact ⟨congrArg Answer.filelength h, congrArg Answer.body h⟩
  · rintro ⟨hN, hbody⟩
    have hlen : bodyLength n p ps = bodyLength m q qs := by
      rw [← bodyOf_length hn ps, ← bodyOf_length hm qs, hbody]
    unfold okAnswer
    rw [show ((p :: ps).flatten.drop (n.length + 15)).take (bodyLength n p ps) = bodyOf n p ps
        from rfl,
      show ((q :: qs).flatten.drop (m.length + 15)).take (bodyLength m q qs) = bodyOf m q qs
        from rfl, hN, hbody, hlen]

/-- Two bodies of the same announced length are the same where the stream repeats itself. -/
theorem bodyOf_eq_iff (hn : n.length + 15 ≤ p.length) (hm : m.length + 15 ≤ q.length)
    (hcut : (p :: ps).flatten = (q :: qs).flatten) (hN : sizeT (atol n) = sizeT (atol m)) :
    bodyOf n p ps = bodyOf m q qs ↔
      Repeats (p :: ps).flatten (n.length + 15) (m.length + 15) (bodyBoundary n p ps)
        (bodyBoundary m q qs) := by
  cases h : bodyBoundary n p ps with
  | some e =>
      obtain ⟨he, hmod⟩ := bodyLength_of_some h
      cases h' : bodyBoundary m q qs with
      | some e' =>
          obtain ⟨he', -⟩ := bodyLength_of_some h'
          constructor
          · intro hbody
            have hlen := congrArg List.length hbody
            rw [bodyOf_length hn, bodyOf_length hm, he, he'] at hlen
            refine ⟨hlen, ?_⟩
            rwa [bodyOf, bodyOf, he, he', ← hcut, ← hlen] at hbody
          · rintro ⟨rfl, hrepeats⟩
            rwa [bodyOf, bodyOf, he, he', ← hcut]
      | none =>
          refine iff_of_false (fun hbody => ?_) id
          obtain ⟨-, hne⟩ := bodyOf_of_none hm h'
          rw [← hbody, bodyOf_length hn, he, hmod] at hne
          exact hne hN
  | none =>
      obtain ⟨hrest, hne⟩ := bodyOf_of_none hn h
      cases h' : bodyBoundary m q qs with
      | some e' =>
          obtain ⟨he', hmod⟩ := bodyLength_of_some h'
          refine iff_of_false (fun hbody => ?_) id
          rw [hbody, bodyOf_length hm, he', hmod] at hne
          exact hne hN.symm
      | none =>
          obtain ⟨hrest', -⟩ := bodyOf_of_none hm h'
          rw [hrest, hrest', ← hcut]
          constructor
          · intro hdrop
            have hlen := congrArg List.length hdrop
            have hle : q.length ≤ (p :: ps).flatten.length := by
              rw [hcut, List.flatten_cons, List.length_append]
              exact Nat.le_add_right _ _
            simp only [List.length_drop, List.flatten_cons, List.length_append] at hlen hle
            unfold Repeats
            omega
          · intro hheader
            rw [show n.length + 15 = m.length + 15 from hheader]

theorem repeats_self (stream : List Byte) (header : ℕ) (b b' : Option ℕ) :
    Repeats stream header header b b' ↔ b = b' := by
  cases b <;> cases b' <;> simp [Repeats]

end boundary

/-- Two cuttings of one response, whatever the heap holds behind the copies: `gfc_perform` gives
the same answer exactly if they are read the same. -/
theorem same_answer_iff (heap₁ heap₂ : List Byte) (gfr : Request) (P₁ P₂ : List (List Byte))
    (h₁ : ∀ p ∈ P₁, p ≠ []) (h₂ : ∀ p ∈ P₂, p ≠ []) (hcut : P₁.flatten = P₂.flatten) :
    SameAnswer (gfcPerform heap₁ gfr (P₁.map .data)) (gfcPerform heap₂ gfr (P₂.map .data)) ↔
      SameReading heap₁ heap₂ P₁ P₂ := by
  unfold SameAnswer
  rw [gfcPerform_answer heap₁ gfr P₁ h₁, gfcPerform_answer heap₂ gfr P₂ h₂]
  cases P₁ with
  | nil =>
      cases P₂ with
      | nil => simp [readAnswer, SameReading]
      | cons q qs =>
          cases q with
          | nil => exact absurd rfl (h₂ [] List.mem_cons_self)
          | cons b q => cases hcut
  | cons p ps =>
      cases P₂ with
      | nil =>
          cases p with
          | nil => exact absurd rfl (h₁ [] List.mem_cons_self)
          | cons b p => cases hcut
      | cons q qs =>
          unfold readAnswer SameReading
          cases hp : reading heap₁ p with
          | announced n =>
              cases hq : reading heap₂ q with
              | announced m =>
                  have hn := (parse_of_announced hp).2
                  have hm := (parse_of_announced hq).2
                  simp only [hp, hq, Option.isSome_some, true_and, Option.some.injEq]
                  rw [okAnswer_inj hn hm]
                  split
                  · next hnm =>
                      subst hnm
                      rw [and_iff_right rfl, bodyOf_eq_iff hn hm hcut rfl, repeats_self]
                  · exact and_congr_right fun hN => bodyOf_eq_iff hn hm hcut hN
              | _ => simp [hp, hq, okAnswer]
          | _ => cases hq : reading heap₂ q <;> simp [hp, hq, okAnswer]

theorem same_answer_iff_cutBody :
    SameAnswer
      (gfcPerform [] ⟨.ok, none, 0, 0, [], false⟩
        ([str "GETFILE OK 2\r\n\r\nx", str "y"].map .data))
      (gfcPerform [] ⟨.ok, none, 0, 0, [], false⟩
        ([str "GETFILE OK 2\r\n\r\n", str "xy"].map .data)) :=
  (same_answer_iff [] [] _ _ _ (by decide) (by decide) (by decide)).mpr rfl

/-- A response with one byte of content, in one piece and cut inside the scheme. -/
theorem not_same_answer_cutScheme :
    ¬SameAnswer
      (gfcPerform [] ⟨.ok, none, 0, 0, [], false⟩ ([str "GETFILE OK 1\r\n\r\nx"].map .data))
      (gfcPerform [] ⟨.ok, none, 0, 0, [], false⟩
        ([str "GET", str "FILE OK 1\r\n\r\nx"].map .data)) := by
  unfold SameAnswer
  decide

end OsProjects.Getfile
