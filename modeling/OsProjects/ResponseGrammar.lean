import OsProjects.GetfileRoundTrip
import OsProjects.HeaderTokens

/-! # The grammar of a response

`gfc_perform` finds the words of a header with `strtok`, which skips any run of delimiters, reads
the length with `atol`, and takes the content from behind fifteen bytes and the length.

* `reading_okForm`, `reading_statusForm` — the headers of the grammar are read as what they are.
* `accepts_grammar_iff` — the first pieces with which `gfc_perform` keeps to the grammar. -/

namespace OsProjects.Getfile

/-- `GETFILE OK`, a length that fits `size_t`, and the content. -/
def OkForm (p content : List Byte) : Prop :=
  ∃ ds, p = str "GETFILE OK " ++ ds ++ str "\r\n\r\n" ++ content ∧ ds ≠ [] ∧
    (∀ b ∈ ds, isDigit b = true) ∧ digitsValue ds < 2 ^ 64

/-- A header without a length; `gfs_sendheader` puts a blank behind the status. -/
def StatusForm (statusText p : List Byte) : Prop :=
  ∃ blank rest, blank ∈ [[], str " "] ∧
    p = str "GETFILE " ++ statusText ++ blank ++ str "\r\n\r\n" ++ rest

/-- The piece begins with a header of the grammar. -/
def WellFormed (p : List Byte) : Prop :=
  (∃ content, OkForm p content) ∨ StatusForm (str "FILE_NOT_FOUND") p ∨ StatusForm (str "ERROR") p

/-- The state at the end of an iteration. -/
def IterationEnd.client : IterationEnd → Client
  | .returned _ s => s
  | .next s => s

/-- Only a header of the grammar leads to `OK`, with the bytes behind it as content, and any other
header leads to `INVALID`, a negative return value and no content. -/
def AcceptsGrammar (heap p : List Byte) (gfr : Request) : Prop :=
  ∃ o, headerIteration heap p (start gfr) = some o ∧
    (o.client.gfr.status = .ok → ∃ content, OkForm p content ∧ o.client.writes = [content]) ∧
    (¬WellFormed p →
      ∃ ret s, o = .returned ret s ∧ ret < 0 ∧ s.gfr.status = .invalid ∧ s.writes = [])

/-! ### The headers of the grammar -/

theorem reading_okForm {p content : List Byte} (h : OkForm p content) (heap : List Byte) :
    ∃ ds, reading heap p = .announced ds ∧ p.drop (ds.length + 15) = content := by
  obtain ⟨ds, rfl, hne, hdigits, _⟩ := h
  refine ⟨ds, reading_announced (isWord_digits (by decide) hne hdigits) heap content, ?_⟩
  have hlen : (str "GETFILE OK " ++ ds ++ str "\r\n\r\n").length = ds.length + 15 := by
    simp only [List.length_append, show (str "GETFILE OK ").length = 11 from rfl,
      show (str "\r\n\r\n").length = 4 from rfl]
    omega
  rw [← hlen, List.drop_left]

theorem parse_statusForm {statusText p : List Byte} (hw : IsWord (str " \r\n") statusText)
    (h : StatusForm statusText p) (heap : List Byte) :
    ∃ rest, parse heap p = parseStatus statusText rest := by
  obtain ⟨blank, rest, hblank, rfl⟩ := h
  have hlen := List.length_pos_iff.mpr hw.ne_nil
  rcases List.mem_pair.mp hblank with rfl | rfl
  · have hp : str "GETFILE " ++ statusText ++ [] ++ str "\r\n\r\n" ++ rest =
        str "GETFILE" ++ 32 :: (statusText ++ 13 :: (10 :: 13 :: 10 :: rest)) := by
      simp [str]
    rw [hp]
    exact ⟨_, parse_status hw heap _ (by decide) (by simp; omega)⟩
  · have hp : str "GETFILE " ++ statusText ++ str " " ++ str "\r\n\r\n" ++ rest =
        str "GETFILE" ++ 32 :: (statusText ++ 32 :: (13 :: 10 :: 13 :: 10 :: rest)) := by
      simp [str]
    rw [hp]
    exact ⟨_, parse_status hw heap _ (by decide) (by simp; omega)⟩

/-! ### The outcomes -/

theorem headerIteration_ok {heap p n : List Byte} (h : parse heap p = .ok n) (gfr : Request) :
    ∃ o, headerIteration heap p (start gfr) = some o ∧ o.client = afterHeader gfr p n := by
  obtain ⟨_, _, hiter⟩ := headerIteration_parse heap p gfr
  simp only [h] at hiter
  refine ⟨_, hiter, ?_⟩
  obtain hend | hend := ended_cases (afterHeader gfr p n)
  · rw [hend]
    rfl
  · rw [hend]
    rfl

theorem afterHeader_writes {p n : List Byte} (h : n.length + 15 ≤ p.length) (gfr : Request) :
    (afterHeader gfr p n).writes = [p.drop (n.length + 15)] :=
  List.filterMap_cons_some (first_content h)

theorem headerIteration_notOk {heap p : List Byte}
    (h : parse heap p = .fileNotFound ∨ parse heap p = .error) (gfr : Request) :
    ∃ s, headerIteration heap p (start gfr) = some (.returned 0 s) ∧ s.gfr.status ≠ .ok := by
  obtain ⟨calls, _, hiter⟩ := headerIteration_parse heap p gfr
  obtain hparse | hparse := h
  · simp only [hparse] at hiter
    exact ⟨_, hiter, fun hok => by cases hok⟩
  · simp only [hparse] at hiter
    exact ⟨_, hiter, fun hok => by cases hok⟩

theorem acceptsGrammar_of_wellFormed {p : List Byte} (hform : WellFormed p) (heap : List Byte)
    (gfr : Request) : AcceptsGrammar heap p gfr := by
  have hstatus : (parse heap p = .fileNotFound ∨ parse heap p = .error) →
      AcceptsGrammar heap p gfr := by
    intro hr
    obtain ⟨s, hpiece, hne⟩ := headerIteration_notOk hr gfr
    exact ⟨_, hpiece, fun hok => absurd hok hne, fun hnot => absurd hform hnot⟩
  have hform' := hform
  rcases hform' with ⟨content, hok⟩ | hfnf | herr
  · obtain ⟨ds, hr, hcontent⟩ := reading_okForm hok heap
    obtain ⟨hparse, hlen⟩ := parse_of_announced hr
    obtain ⟨o, hpiece, hclient⟩ := headerIteration_ok hparse gfr
    have hwrites := afterHeader_writes hlen gfr
    rw [← hclient, hcontent] at hwrites
    exact ⟨o, hpiece, fun _ => ⟨content, hok, hwrites⟩, fun hnot => absurd hform hnot⟩
  · obtain ⟨rest, hr⟩ := parse_statusForm isWord_fileNotFound hfnf heap
    exact hstatus (.inl hr)
  · obtain ⟨rest, hr⟩ := parse_statusForm isWord_error herr heap
    exact hstatus (.inr hr)

theorem acceptsGrammar_of_refused {heap p : List Byte} (h : Refused heap p) (gfr : Request) :
    AcceptsGrammar heap p gfr := by
  obtain ⟨s, hpiece, hinvalid, hwrites⟩ := headerIteration_refused h gfr
  refine ⟨_, hpiece, fun hok => ?_, fun _ => ⟨-1, s, rfl, by omega, hinvalid, hwrites⟩⟩
  rw [show (IterationEnd.returned (-1) s).client = s from rfl, hinvalid] at hok
  cases hok

/-- A piece that is answered as `INVALID` is refused. -/
theorem refused_of_invalid {heap p : List Byte} {gfr : Request} {ret : ℤ} {s : Client}
    (hpiece : headerIteration heap p (start gfr) = some (.returned ret s)) (hret : ret < 0)
    (hinvalid : s.gfr.status = .invalid) : Refused heap p := by
  cases hr : parse heap p with
  | null =>
      obtain ⟨_, _, h⟩ := headerIteration_parse heap p gfr
      simp only [hr] at h
      rw [h] at hpiece
      cases hpiece
  | short => exact (parse_refused_iff heap p).mp (.inl hr)
  | refused => exact (parse_refused_iff heap p).mp (.inr hr)
  | fileNotFound =>
      obtain ⟨s', h, _⟩ := headerIteration_notOk (.inl hr) gfr
      rw [h] at hpiece
      cases hpiece
      omega
  | error =>
      obtain ⟨s', h, _⟩ := headerIteration_notOk (.inr hr) gfr
      rw [h] at hpiece
      cases hpiece
      omega
  | ok n =>
      obtain ⟨o', h, hclient⟩ := headerIteration_ok hr gfr
      rw [h] at hpiece
      cases hpiece
      rw [show s = afterHeader gfr p n from hclient] at hinvalid
      cases hinvalid

/-- **The client keeps to the grammar** exactly with a header of the grammar and with a piece that
it refuses. -/
theorem accepts_grammar_iff (heap p : List Byte) (gfr : Request) :
    AcceptsGrammar heap p gfr ↔ WellFormed p ∨ Refused heap p := by
  constructor
  · rintro ⟨o, hpiece, _, hinvalid⟩
    by_cases hform : WellFormed p
    · exact .inl hform
    · obtain ⟨ret, s, rfl, hret, hstatus, _⟩ := hinvalid hform
      exact .inr (refused_of_invalid hpiece hret hstatus)
  · rintro (hform | hrefused)
    · exact acceptsGrammar_of_wellFormed hform heap gfr
    · exact acceptsGrammar_of_refused hrefused gfr

/-- A length that is no number. -/
theorem not_acceptsGrammar_noNumber :
    ¬ ∀ (heap p : List Byte) (gfr : Request), str "\r\n\r\n" <:+: p → AcceptsGrammar heap p gfr := by
  intro h
  have hr := reading_announced (show IsWord (str " \r\n") (str "abc") by decide) [] []
  obtain ⟨hparse, _⟩ := parse_of_announced hr
  obtain ⟨o, hpiece, hok, _⟩ := h [] (str "GETFILE OK " ++ str "abc" ++ str "\r\n\r\n" ++ [])
    ⟨.ok, none, 0, 0, [], false⟩ ⟨str "GETFILE OK " ++ str "abc", [], rfl⟩
  obtain ⟨o', hpiece', hclient⟩ := headerIteration_ok hparse ⟨.ok, none, 0, 0, [], false⟩
  rw [hpiece'] at hpiece
  obtain rfl := Option.some.inj hpiece
  obtain ⟨content, ⟨ds, hp, hne, hdigits, _⟩, _⟩ := hok (by rw [hclient]; rfl)
  simp only [List.append_assoc, List.append_cancel_left_eq] at hp
  cases ds with
  | nil => exact hne rfl
  | cons b ds =>
      have hb : (97 : Byte) = b := congrArg (List.headD · 0) hp
      have hdigit := hdigits b List.mem_cons_self
      rw [← hb] at hdigit
      cases hdigit

end OsProjects.Getfile
