import OsProjects.HeaderShape

/-! # The size of a download

`gfc_perform` compares the bytes written with the announced length after whole pieces, and on a
closed connection only asks whether there are too few.

* `bodyEnd_eq_iff`, `bodyEnd_lt_iff` — when the body ends at the announced length, and when it is
  found to be too short.
* `exactDownload_iff` — the responses, with their piece boundaries, for which a successful download
  has the announced size. -/

namespace OsProjects.Getfile

/-- If the run returns `0` with status `OK`, then `writefunc` got as many bytes as announced, and
as many are counted. -/
def ExactDownload (heap : List Byte) (gfr : Request) (pieces : List (List Byte)) : Prop :=
  ∃ ret s, perform heap gfr (pieces.map .data) = some (ret, s) ∧
    (ret = 0 → s.gfr.status = .ok →
      writtenSize s.calls = s.gfr.filelength ∧ s.gfr.bytesOfFileReceived = s.gfr.filelength)

/-- With `d` bytes of content in the first piece: no boundary of the pieces behind it looks like the
end of a file of `N` bytes, and all bytes together are too few, modulo `2 ^ 64`. -/
def TooShort (N d : ℕ) (ps : List (List Byte)) : Prop :=
  (∀ t ∈ totals d ps, t % 2 ^ 64 ≠ N) ∧ (d + ps.flatten.length) % 2 ^ 64 < N

/-- One boundary has exactly `N` bytes in front of it, or the content is found to be too short. -/
def LengthMet (N d : ℕ) (ps : List (List Byte)) : Prop := N ∈ totals d ps ∨ TooShort N d ps

/-- The condition for `ExactDownload`; the first piece may end inside of its header, and the length
of its content wrap around. -/
def SizeMet (heap : List Byte) (gfr : Request) : List (List Byte) → Prop
  | [] => gfr.filelength = 0 → gfr.status = .ok → gfr.bytesOfFileReceived = 0
  | p :: ps =>
      match parse heap p with
      | .null => False
      | .short | .refused | .fileNotFound | .error => True
      | .ok n => LengthMet (sizeT (atol n)) (filecontentlength p n) ps

/-! ### Where the body ends -/

section bodyEnd
variable {N : ℕ}

theorem le_of_mem_totals {d t : ℕ} {ps : List (List Byte)} (h : t ∈ totals d ps) : d ≤ t := by
  induction ps generalizing d with
  | nil =>
      obtain rfl := List.mem_singleton.mp h
      exact le_refl t
  | cons p ps ih =>
      rcases List.mem_cons.mp h with rfl | h
      · exact le_refl t
      · have hle := ih h
        omega

theorem bodyEnd_mem_totals (N d : ℕ) (ps : List (List Byte)) : bodyEnd N d ps ∈ totals d ps := by
  induction ps generalizing d with
  | nil => exact List.mem_singleton.mpr rfl
  | cons p ps ih =>
      unfold bodyEnd totals
      split
      · exact List.mem_cons_self
      · exact List.mem_cons_of_mem _ (ih (d + p.length))

/-- The body ends at the announced length exactly if a piece does. -/
theorem bodyEnd_eq_iff (hN : N < 2 ^ 64) (d : ℕ) (ps : List (List Byte)) :
    bodyEnd N d ps = N ↔ N ∈ totals d ps := by
  constructor
  · intro h
    have hmem := bodyEnd_mem_totals N d ps
    rwa [h] at hmem
  · intro h
    induction ps generalizing d with
    | nil => exact (List.mem_singleton.mp h).symm
    | cons p ps ih =>
        unfold bodyEnd
        rcases List.mem_cons.mp h with rfl | h'
        · rw [if_pos (Nat.mod_eq_of_lt hN)]
        · split
          · next heq =>
              -- `d ≤ N` and `d` is `N` modulo `2 ^ 64`
              have hle := le_of_mem_totals h
              rwa [Nat.mod_eq_of_lt (by omega)] at heq
          · exact ih (d + p.length) h'

/-- The body is found to be too short exactly if no boundary looks like its end. -/
theorem bodyEnd_lt_iff (d : ℕ) (ps : List (List Byte)) :
    bodyEnd N d ps % 2 ^ 64 < N ↔ TooShort N d ps := by
  unfold TooShort
  induction ps generalizing d with
  | nil =>
      simp only [bodyEnd, totals, List.mem_singleton, forall_eq, List.flatten_nil, List.length_nil,
        Nat.add_zero]
      omega
  | cons p ps ih =>
      have hlen : d + (p :: ps).flatten.length = d + p.length + ps.flatten.length := by
        simp only [List.flatten_cons, List.length_append]
        omega
      rw [hlen]
      unfold bodyEnd totals
      rw [List.forall_mem_cons]
      split
      · next heq =>
          constructor
          · intro h
            omega
          · rintro ⟨⟨hne, _⟩, _⟩
            exact absurd heq hne
      · next hne =>
          rw [ih (d + p.length)]
          simp only [ne_eq, hne, not_false_eq_true, true_and]

end bodyEnd

section ends
variable {heap p n : List Byte} {gfr : Request} {N : ℕ}

theorem Ends.exact_iff {e : ℕ} {ret : ℤ} {t : Client} (h : Ends N e ret t) (hN : N < 2 ^ 64) :
    (ret = 0 → t.gfr.status = .ok →
      writtenSize t.calls = t.gfr.filelength ∧ t.gfr.bytesOfFileReceived = t.gfr.filelength) ↔
      e = N ∨ e % 2 ^ 64 < N := by
  rw [h.ret, h.filelength, h.written, h.bytesOfFileReceived]
  by_cases hlt : e % 2 ^ 64 < N
  · rw [if_pos hlt]
    exact iff_of_true (fun h => absurd h (by decide)) (.inr hlt)
  · rw [if_neg hlt]
    constructor
    · exact fun hexact => .inl (hexact rfl h.status).1
    · rintro (rfl | h) _ _
      · exact ⟨rfl, Nat.mod_eq_of_lt hN⟩
      · exact absurd h hlt

/-! ### The download -/

/-- A first piece without a length: with a null token there is no run, and otherwise the status is
not `OK`. -/
theorem exactDownload_noLength (hp : p ≠ []) (hok : ∀ n, parse heap p ≠ .ok n) (gfr : Request)
    (ps : List (List Byte)) : ExactDownload heap gfr (p :: ps) ↔ parse heap p ≠ .null := by
  obtain ⟨calls, _, hiter⟩ := headerIteration_parse heap p gfr
  unfold ExactDownload
  rw [List.map_cons]
  cases hparse : parse heap p with
  | null =>
      rw [perform_null hp hparse]
      exact iff_of_false (by simp) (by simp)
  | ok n => exact absurd hparse (hok n)
  | short | refused | fileNotFound | error =>
      simp only [hparse] at hiter
      refine iff_of_true ⟨_, _, perform_returned hp hiter _, fun _ hstatus => ?_⟩ (by simp)
      cases hstatus

/-- **A successful download has the announced size** exactly if, after an `OK`, a piece boundary
has the announced number of bytes in front of it or the body is found to be too short. -/
theorem exactDownload_iff (heap : List Byte) (gfr : Request) (pieces : List (List Byte))
    (hpieces : ∀ p ∈ pieces, p ≠ []) :
    ExactDownload heap gfr pieces ↔ SizeMet heap gfr pieces := by
  cases pieces with
  | nil =>
      simp only [ExactDownload, SizeMet, List.map_nil, perform, performFrom, Client.closed, start,
        Option.some.injEq, Prod.mk.injEq]
      by_cases h0 : 0 < gfr.filelength
      · simp [h0, Nat.ne_of_gt h0]
      · have hzero : gfr.filelength = 0 := by omega
        simp [hzero, writtenSize]
  | cons p ps =>
      obtain ⟨hp, hps⟩ := List.forall_mem_cons.mp hpieces
      by_cases hok : ∃ n, parse heap p = .ok n
      · obtain ⟨n, hn⟩ := hok
        obtain ⟨ret, t, hrun, hends⟩ := perform_ends hp hn gfr hps
        have hN := sizeT_lt (atol n)
        have hexact := hends.exact_iff hN
        rw [bodyEnd_eq_iff hN, bodyEnd_lt_iff] at hexact
        simp only [SizeMet, hn, LengthMet, ← hexact, ExactDownload, hrun, Option.some.injEq,
          Prod.mk.injEq]
        constructor
        · rintro ⟨_, _, ⟨rfl, rfl⟩, h⟩
          exact h
        · exact fun h => ⟨ret, t, ⟨rfl, rfl⟩, h⟩
      · have hno := not_exists.mp hok
        rw [exactDownload_noLength hp hno, SizeMet]
        cases hparse : parse heap p with
        | ok n => exact absurd hparse (hno n)
        | _ => simp

end ends

theorem exactDownload_iff_twoPieces :
    ExactDownload [] ⟨.error, none, 9, 9, [], false⟩ [str "GETFILE OK 2\r\n\r\na", str "b"] :=
  (exactDownload_iff [] ⟨.error, none, 9, 9, [], false⟩ [str "GETFILE OK 2\r\n\r\na", str "b"]
    (by decide)).mpr (.inl (by decide))

/-- Two bytes behind a header that announces one. -/
theorem not_exactDownload_oneMore :
    ¬ ∀ (heap : List Byte) (gfr : Request) (pieces : List (List Byte)), (∀ p ∈ pieces, p ≠ []) →
      ExactDownload heap gfr pieces := by
  intro h
  obtain ⟨ret, s, hrun, hexact⟩ :=
    h [] ⟨.ok, none, 0, 0, [], false⟩ [str "GETFILE OK 1\r\n\r\nxy"] (by decide)
  have hrun' : (perform [] ⟨.ok, none, 0, 0, [], false⟩
      ([str "GETFILE OK 1\r\n\r\nxy"].map .data)).map
        (fun r => (r.1, r.2.gfr.status, r.2.gfr.filelength, writtenSize r.2.calls)) =
          some (0, .ok, 1, 2) := by decide
  rw [hrun, Option.map_some, Option.some.injEq, Prod.mk.injEq, Prod.mk.injEq,
    Prod.mk.injEq] at hrun'
  obtain ⟨hret, hstatus, hlength, hwritten⟩ := hrun'
  have hmet := (hexact hret hstatus).1
  rw [hwritten, hlength] at hmet
  cases hmet

end OsProjects.Getfile
