import OsProjects.DownloadSize

/-! # A connection that is closed early

When `recv` gives no bytes, `gfc_perform` compares the content counted so far with `filelength`,
whether or not a header has set it; and a status word is acted on as soon as it is there.

* `perform_negative` — the value returned behind a header with a length.
* `closedEarly_iff` — the responses without a complete header for which a negative value is
  returned. -/

namespace OsProjects.Getfile

/-- The end of a header has been received. -/
def HeaderComplete (pieces : List (List Byte)) : Prop := str "\r\n\r\n" <:+: pieces.flatten

instance (pieces : List (List Byte)) : Decidable (HeaderComplete pieces) :=
  inferInstanceAs (Decidable (_ <:+: _))

/-- If the connection is closed before a complete header has been received, then the value returned
is negative. -/
def ClosedEarlyIsError (heap : List Byte) (gfr : Request) (pieces : List (List Byte)) : Prop :=
  ¬HeaderComplete pieces →
    ∃ ret s, perform heap gfr (pieces.map .data) = some (ret, s) ∧ ret < 0

/-- Without any bytes, the structure happens to have a length; a first piece is refused, or has a
length that the content does not reach. -/
def NoticesClose (heap : List Byte) (gfr : Request) : List (List Byte) → Prop
  | [] => 0 < gfr.filelength
  | p :: ps => Refused heap p ∨ ∃ h : OkHeader heap p,
      TooShort (sizeT (atol h.filelength)) (filecontentlength p h.filelength) ps

section close
variable {heap p n : List Byte} {gfr : Request}

theorem Client.closed_negative (s : Client) :
    s.closed < 0 ↔ s.bytesTotalOfFile < s.gfr.filelength := by
  unfold Client.closed
  split
  · next hlt => exact iff_of_true (by decide) hlt
  · next hle => exact iff_of_false (by decide) hle

/-- The value returned behind a header with a length: the content is compared where it ends. -/
theorem perform_negative (hp : p ≠ []) (h : parse heap p = .ok n) (gfr : Request)
    {ps : List (List Byte)} (hps : ∀ p ∈ ps, p ≠ []) :
    ∃ ret t, perform heap gfr ((p :: ps).map .data) = some (ret, t) ∧
      (ret < 0 ↔ TooShort (sizeT (atol n)) (filecontentlength p n) ps) := by
  obtain ⟨ret, t, hrun, hends⟩ := perform_ends hp h gfr hps
  refine ⟨ret, t, hrun, ?_⟩
  rw [← bodyEnd_lt_iff, hends.ret]
  split
  · next hlt => exact iff_of_true (by decide) hlt
  · next hle => exact iff_of_false (by decide) hle

theorem perform_status (hp : p ≠ []) (h : ¬Refused heap p) (hok : ∀ n, parse heap p ≠ .ok n)
    (gfr : Request) {rs : List Recv} {ret : ℤ} {t : Client}
    (hrun : perform heap gfr (.data p :: rs) = some (ret, t)) : ret = 0 := by
  obtain ⟨calls, _, hiter⟩ := headerIteration_parse heap p gfr
  cases hparse : parse heap p with
  | null =>
      rw [perform_null hp hparse] at hrun
      cases hrun
  | short => exact absurd ((parse_refused_iff heap p).mp (.inl hparse)) h
  | refused => exact absurd ((parse_refused_iff heap p).mp (.inr hparse)) h
  | fileNotFound | error =>
      simp only [hparse] at hiter
      rw [perform_returned hp hiter] at hrun
      exact (Prod.mk.inj (Option.some.inj hrun)).1.symm
  | ok n => exact absurd hparse (hok n)

theorem negative_iff (heap : List Byte) (gfr : Request) {pieces : List (List Byte)}
    (hpieces : ∀ p ∈ pieces, p ≠ []) :
    (∃ ret s, perform heap gfr (pieces.map .data) = some (ret, s) ∧ ret < 0) ↔
      NoticesClose heap gfr pieces := by
  cases pieces with
  | nil =>
      have hclosed : (start gfr).closed < 0 ↔ 0 < gfr.filelength := (start gfr).closed_negative
      rw [NoticesClose, ← hclosed]
      constructor
      · rintro ⟨ret, s, hrun, hret⟩
        rwa [← (Prod.mk.inj (Option.some.inj hrun)).1] at hret
      · intro hret
        exact ⟨_, _, rfl, hret⟩
  | cons p ps =>
      obtain ⟨hp, hps⟩ := List.forall_mem_cons.mp hpieces
      rw [NoticesClose]
      by_cases hrefused : Refused heap p
      · obtain ⟨t, hpiece, _⟩ := headerIteration_refused hrefused gfr
        have hrun := perform_returned hp hpiece (ps.map .data)
        exact iff_of_true ⟨-1, t, hrun, by decide⟩ (.inl hrefused)
      rw [or_iff_right hrefused]
      constructor
      · rintro ⟨ret, s, hrun, hret⟩
        by_cases hok : ∃ n, parse heap p = .ok n
        · obtain ⟨n, hn⟩ := hok
          obtain ⟨h, rfl⟩ := parse_ok_iff.mp hn
          obtain ⟨ret', t, hrun', hret'⟩ := perform_negative hp hn gfr hps
          rw [hrun] at hrun'
          obtain ⟨rfl, _⟩ := Prod.mk.inj (Option.some.inj hrun')
          exact ⟨h, hret'.mp hret⟩
        · rw [perform_status hp hrefused (not_exists.mp hok) gfr hrun] at hret
          exact absurd hret (lt_irrefl 0)
      · rintro ⟨h, hshort⟩
        obtain ⟨ret, t, hrun, hret⟩ :=
          perform_negative hp (parse_ok_iff.mpr ⟨h, rfl⟩) gfr hps
        exact ⟨ret, t, hrun, hret.mpr hshort⟩

/-- **A close before the header is complete is an error** exactly if the uninitialised length is not
zero, the first piece is refused, or its length is not reached. -/
theorem closedEarly_iff (heap : List Byte) (gfr : Request) (pieces : List (List Byte))
    (hpieces : ∀ p ∈ pieces, p ≠ []) :
    ClosedEarlyIsError heap gfr pieces ↔
      HeaderComplete pieces ∨ NoticesClose heap gfr pieces := by
  rw [ClosedEarlyIsError, negative_iff heap gfr hpieces]
  by_cases hheader : HeaderComplete pieces
  · exact iff_of_true (fun h => absurd hheader h) (.inl hheader)
  · rw [or_iff_right hheader]
    exact forall_prop_of_true hheader

end close

theorem closedEarly_iff_cut :
    ClosedEarlyIsError [0] ⟨.ok, none, 0, 5, [], false⟩ [str "GETFILE ERROR\r\n"] ↔
      HeaderComplete [str "GETFILE ERROR\r\n"] ∨
        NoticesClose [0] ⟨.ok, none, 0, 5, [], false⟩ [str "GETFILE ERROR\r\n"] :=
  closedEarly_iff _ _ _ (by decide)

/-- No bytes at all, and a structure that holds a length of zero. -/
theorem not_closedEarly_nothing :
    ¬∀ (heap : List Byte) (gfr : Request) (pieces : List (List Byte)), (∀ p ∈ pieces, p ≠ []) →
      ClosedEarlyIsError heap gfr pieces := by
  intro h
  obtain ⟨ret, s, hrun, hret⟩ :=
    h [] ⟨.ok, none, 0, 0, [], false⟩ [] (List.forall_mem_nil _) (by decide)
  rw [← (Prod.mk.inj (Option.some.inj hrun)).1] at hret
  exact absurd hret (by decide)

end OsProjects.Getfile
