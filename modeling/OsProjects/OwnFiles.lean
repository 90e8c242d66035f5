import OsProjects.FileSystem
import OsProjects.Transition
import Mathlib.Data.List.Nodup

/-! # Files written by one process each

Processes share a directory; each makes a file under a name that nobody has used before, writes to
it, may remove it, and closes it.

* `step` — the four operations, of any process at any moment.
* `Own` — what holds in every state: a file has what its process wrote, or is gone if the process
  has removed it, and all other names are as they were at the start.
* `own_of_reach` — this holds along every run. -/

namespace OsProjects.OwnFiles

open Transition

variable {ω ν β : Type*} [DecidableEq ω] [DecidableEq ν]

/-- A file being written; no content once it has been removed. -/
structure Open (ν β : Type*) where
  name : ν
  file : ℕ
  content : Option (List β)

/-- The directory, the file of each process, the names used so far and the files closed. -/
structure State (ω ν β : Type*) where
  fs : FileSystem ν β
  current : ω → Option (Open ν β)
  opened : List ν
  closed : List (ν × Option (List β))

inductive Act (ν β : Type*) where
  | create (name : ν)
  | append (bytes : List β)
  | unlink
  | close

/-- No process has a file. -/
def init (ω : Type*) (fs : FileSystem ν β) : State ω ν β := ⟨fs, fun _ => none, [], []⟩

/-- One operation of a process. -/
def step (s : State ω ν β) (a : ω × Act ν β) : Option (State ω ν β) :=
  match a.2, s.current a.1 with
  | .create name, none =>
      if name ∈ s.opened then none
      else some { s with
        fs := (s.fs.create name).1
        current := Function.update s.current a.1 (some ⟨name, (s.fs.create name).2, some []⟩)
        opened := s.opened ++ [name] }
  | .append bytes, some ⟨name, file, some content⟩ =>
      some { s with
        fs := s.fs.append file bytes
        current := Function.update s.current a.1 (some ⟨name, file, some (content ++ bytes)⟩) }
  | .unlink, some o =>
      some { s with
        fs := s.fs.unlink o.name
        current := Function.update s.current a.1 (some { o with content := none }) }
  | .close, some o =>
      some { s with
        current := Function.update s.current a.1 none
        closed := s.closed ++ [(o.name, o.content)] }
  | _, _ => none

variable {fs₀ : FileSystem ν β} {s s' : State ω ν β} {v w : ω} {o o' : Open ν β}

theorem step_create {name : ν} (h : s.current w = none) (hnew : name ∉ s.opened) :
    step s (w, .create name) = some { s with
      fs := (s.fs.create name).1
      current := Function.update s.current w (some ⟨name, (s.fs.create name).2, some []⟩)
      opened := s.opened ++ [name] } := by
  simp [step, h, hnew]

theorem step_append {name : ν} {file : ℕ} {content : List β}
    (h : s.current w = some ⟨name, file, some content⟩) (bytes : List β) :
    step s (w, .append bytes) = some { s with
      fs := s.fs.append file bytes
      current := Function.update s.current w (some ⟨name, file, some (content ++ bytes)⟩) } := by
  simp [step, h]

theorem step_unlink (h : s.current w = some o) :
    step s (w, .unlink) = some { s with
      fs := s.fs.unlink o.name
      current := Function.update s.current w (some { o with content := none }) } := by
  simp [step, h]

theorem step_close (h : s.current w = some o) :
    step s (w, .close) = some { s with
      current := Function.update s.current w none
      closed := s.closed ++ [(o.name, o.content)] } := by
  simp [step, h]

/-- The file of a process is where and what the process knows it to be. -/
structure Holds (s : State ω ν β) (o : Open ν β) : Prop where
  opened : o.name ∈ s.opened
  notClosed : o.name ∉ s.closed.map Prod.fst
  read : s.fs.read o.name = o.content
  file : o.content ≠ none → s.fs.dir o.name = some o.file

/-- Every process has its own file, and every name used is that of one of these or of a file that has
been closed. -/
structure Own (fs₀ : FileSystem ν β) (s : State ω ν β) : Prop where
  holds : ∀ w o, s.current w = some o → Holds s o
  apart : ∀ v w o o', v ≠ w → s.current v = some o → s.current w = some o' → o.name ≠ o'.name
  closed : ∀ x ∈ s.closed, x.1 ∈ s.opened ∧ s.fs.read x.1 = x.2
  nodup : (s.closed.map Prod.fst).Nodup
  rest : ∀ n, n ∉ s.opened → s.fs.read n = fs₀.read n
  cover : ∀ n ∈ s.opened, n ∈ s.closed.map Prod.fst ∨ ∃ w o, s.current w = some o ∧ o.name = n

omit [DecidableEq ω] [DecidableEq ν] in
theorem own_init (ω : Type*) (fs : FileSystem ν β) : Own fs (init ω fs) where
  holds _ _ h := by cases h
  apart _ _ _ _ _ h := by cases h
  closed := List.forall_mem_nil _
  nodup := List.nodup_nil
  rest _ _ := rfl
  cover := List.forall_mem_nil _

omit [DecidableEq ν] in
/-- A step that changes the file of process `w`, which goes on with it under its name. -/
theorem Own.change (hO : Own fs₀ s) (hw : s.current w = some o)
    (hcurrent : s'.current = Function.update s.current w (some o')) (hname : o'.name = o.name)
    (hopened : s'.opened = s.opened) (hclosed : s'.closed = s.closed)
    (hfs : ∀ n ≠ o.name, s'.fs.read n = s.fs.read n ∧ s'.fs.dir n = s.fs.dir n)
    (hread : s'.fs.read o.name = o'.content)
    (hfile : o'.content ≠ none → s'.fs.dir o.name = some o'.file) : Own fs₀ s' := by
  have hself : s'.current w = some o' := by rw [hcurrent, Function.update_self]
  have hother : ∀ v ≠ w, s'.current v = s.current v := by
    intro v hv
    rw [hcurrent, Function.update_of_ne hv]
  have hhold := hO.holds w o hw
  refine ⟨fun v p hv => ?_, fun u v p q huv hu hv => ?_, fun x hx => ?_, ?_, fun n hn => ?_,
    fun n hn => ?_⟩
  · by_cases hvw : v = w
    · rw [hvw, hself] at hv
      obtain rfl := Option.some.inj hv
      refine ⟨?_, ?_, ?_, ?_⟩
      · rw [hname, hopened]
        exact hhold.opened
      · rw [hname, hclosed]
        exact hhold.notClosed
      · rw [hname, hread]
      · rw [hname]
        exact hfile
    · rw [hother v hvw] at hv
      have hp := hO.holds v p hv
      have hne := hfs p.name (hO.apart v w p o hvw hv hw)
      refine ⟨?_, ?_, ?_, ?_⟩
      · rw [hopened]
        exact hp.opened
      · rw [hclosed]
        exact hp.notClosed
      · rw [hne.1]
        exact hp.read
      · rw [hne.2]
        exact hp.file
  · have hcases : ∀ t q, s'.current t = some q → ∃ q', s.current t = some q' ∧ q'.name = q.name := by
      intro t q ht
      by_cases htw : t = w
      · rw [htw, hself] at ht
        obtain rfl := Option.some.inj ht
        exact ⟨o, htw ▸ hw, hname.symm⟩
      · exact ⟨q, by rw [← hother t htw, ht], rfl⟩
    obtain ⟨p', hp', hpn⟩ := hcases u p hu
    obtain ⟨q', hq', hqn⟩ := hcases v q hv
    rw [← hpn, ← hqn]
    exact hO.apart u v p' q' huv hp' hq'
  · rw [hclosed] at hx
    obtain ⟨hmem, hx'⟩ := hO.closed x hx
    have hne : x.1 ≠ o.name := by
      intro heq
      exact hhold.notClosed (heq ▸ List.mem_map_of_mem hx)
    rw [hopened, (hfs x.1 hne).1]
    exact ⟨hmem, hx'⟩
  · rw [hclosed]
    exact hO.nodup
  · rw [hopened] at hn
    rw [(hfs n fun heq => hn (heq ▸ hhold.opened)).1]
    exact hO.rest n hn
  · rw [hopened] at hn
    rw [hclosed]
    apply (hO.cover n hn).imp_right
    rintro ⟨v, p, hv, hp⟩
    by_cases hvw : v = w
    · rw [hvw, hw] at hv
      obtain rfl := Option.some.inj hv
      exact ⟨w, o', hself, hname.trans hp⟩
    · exact ⟨v, p, by rw [hother v hvw, hv], hp⟩

theorem Own.create {name : ν} (hO : Own fs₀ s) (hw : s.current w = none) (hnew : name ∉ s.opened) :
    Own fs₀ { s with
      fs := (s.fs.create name).1
      current := Function.update s.current w (some ⟨name, (s.fs.create name).2, some []⟩)
      opened := s.opened ++ [name] } := by
  have hfs : ∀ n ∈ s.opened, (s.fs.create name).1.read n = s.fs.read n ∧
      (s.fs.create name).1.dir n = s.fs.dir n := by
    intro n hn
    have hne : n ≠ name := fun heq => hnew (heq ▸ hn)
    rw [FileSystem.read_create, FileSystem.dir_create, Function.update_of_ne hne,
      Function.update_of_ne hne]
    exact ⟨rfl, rfl⟩
  have hclosed : name ∉ s.closed.map Prod.fst := by
    intro hmem
    obtain ⟨x, hx, hxn⟩ := List.mem_map.mp hmem
    exact hnew (hxn ▸ (hO.closed x hx).1)
  refine ⟨fun v p hv => ?_, fun u v p q huv hu hv => ?_, fun x hx => ?_, hO.nodup, fun n hn => ?_,
    fun n hn => ?_⟩
  · dsimp only at hv
    by_cases hvw : v = w
    · rw [hvw, Function.update_self] at hv
      obtain rfl := Option.some.inj hv
      refine ⟨?_, hclosed, ?_, fun _ => ?_⟩
      · simp
      · simp [FileSystem.read_create]
      · simp [FileSystem.dir_create]
    · rw [Function.update_of_ne hvw] at hv
      have hp := hO.holds v p hv
      have hsame := hfs p.name hp.opened
      exact ⟨List.mem_append_left _ hp.opened, hp.notClosed, hsame.1.trans hp.read,
        fun h => hsame.2.trans (hp.file h)⟩
  · dsimp only at hu hv
    by_cases huw : u = w
    · by_cases hvw : v = w
      · exact absurd (huw.trans hvw.symm) huv
      · rw [huw, Function.update_self] at hu
        rw [Function.update_of_ne hvw] at hv
        obtain rfl := Option.some.inj hu
        intro heq
        have hmem := (hO.holds v q hv).opened
        rw [← heq] at hmem
        exact hnew hmem
    · rw [Function.update_of_ne huw] at hu
      by_cases hvw : v = w
      · rw [hvw, Function.update_self] at hv
        obtain rfl := Option.some.inj hv
        intro heq
        have hmem := (hO.holds u p hu).opened
        rw [heq] at hmem
        exact hnew hmem
      · rw [Function.update_of_ne hvw] at hv
        exact hO.apart u v p q huv hu hv
  · obtain ⟨hmem, hx'⟩ := hO.closed x hx
    exact ⟨List.mem_append_left _ hmem, (hfs x.1 hmem).1.trans hx'⟩
  · rw [List.mem_append, not_or] at hn
    dsimp only
    rw [FileSystem.read_create, Function.update_of_ne fun heq => hn.2 (by simp [heq])]
    exact hO.rest n hn.1
  · obtain hn | hn := List.mem_append.mp hn
    · apply (hO.cover n hn).imp_right
      rintro ⟨v, p, hv, hp⟩
      have hvw : v ≠ w := by
        rintro rfl
        rw [hw] at hv
        cases hv
      refine ⟨v, p, ?_, hp⟩
      dsimp only
      rw [Function.update_of_ne hvw, hv]
    · exact .inr ⟨w, _, Function.update_self _ _ _, (List.mem_singleton.mp hn).symm⟩

omit [DecidableEq ν] in
theorem Own.close (hO : Own fs₀ s) (hw : s.current w = some o) :
    Own fs₀ { s with
      current := Function.update s.current w none
      closed := s.closed ++ [(o.name, o.content)] } := by
  have hhold := hO.holds w o hw
  have hback : ∀ v p, Function.update s.current w none v = some p →
      v ≠ w ∧ s.current v = some p := by
    intro v p hv
    have hvw : v ≠ w := by
      rintro rfl
      rw [Function.update_self] at hv
      cases hv
    rw [Function.update_of_ne hvw] at hv
    exact ⟨hvw, hv⟩
  refine ⟨fun v p hv => ?_, fun u v p q huv hu hv => ?_, fun x hx => ?_, ?_, hO.rest,
    fun n hn => ?_⟩
  · obtain ⟨hvw, hv⟩ := hback v p hv
    have hp := hO.holds v p hv
    refine ⟨hp.opened, ?_, hp.read, hp.file⟩
    rw [List.map_append, List.mem_append, not_or]
    exact ⟨hp.notClosed, fun hmem => hO.apart v w p o hvw hv hw (by simpa using hmem)⟩
  · exact hO.apart u v p q huv (hback u p hu).2 (hback v q hv).2
  · obtain hx | hx := List.mem_append.mp hx
    · exact hO.closed x hx
    · rw [List.mem_singleton.mp hx]
      exact ⟨hhold.opened, hhold.read⟩
  · rw [List.map_append, List.nodup_append]
    refine ⟨hO.nodup, List.nodup_singleton _, fun a ha b hb => ?_⟩
    rw [List.mem_singleton.mp hb]
    rintro rfl
    exact hhold.notClosed ha
  · rw [List.map_append, List.mem_append]
    obtain hn | ⟨v, p, hv, hp⟩ := hO.cover n hn
    · exact .inl (.inl hn)
    · by_cases hvw : v = w
      · rw [hvw, hw] at hv
        obtain rfl := Option.some.inj hv
        exact .inl (.inr (by simp [hp]))
      · refine .inr ⟨v, p, ?_, hp⟩
        dsimp only
        rw [Function.update_of_ne hvw, hv]

theorem Own.step {a : ω × Act ν β} (hO : Own fs₀ s) (h : step s a = some s') : Own fs₀ s' := by
  obtain ⟨w, act⟩ := a
  unfold OwnFiles.step at h
  dsimp only at h
  split at h
  · next name hw =>
      obtain ⟨hnew, h⟩ := Option.ite_none_left_eq_some.mp h
      obtain rfl := Option.some.inj h
      exact hO.create hw hnew
  · next bytes name file content hw =>
      obtain rfl := Option.some.inj h
      have hhold := hO.holds w _ hw
      have hdir := hhold.file (by simp)
      have hread := FileSystem.read_append hdir hhold.read bytes
      refine hO.change hw rfl rfl rfl rfl (fun n hn => ⟨?_, rfl⟩) ?_ fun _ => hdir
      · rw [hread, Function.update_of_ne hn]
      · rw [hread, Function.update_self]
  · next o hw =>
      obtain rfl := Option.some.inj h
      refine hO.change hw rfl rfl rfl rfl (fun n hn => ⟨?_, ?_⟩) ?_ fun h => absurd rfl h
      · rw [FileSystem.read_unlink, Function.update_of_ne hn]
      · exact FileSystem.dir_unlink_of_ne _ hn
      · rw [FileSystem.read_unlink, Function.update_self]
  · next o hw =>
      obtain rfl := Option.some.inj h
      exact hO.close hw
  · cases h

/-- **Files of their own**: along every run of the processes. -/
theorem own_of_reach (h : Reach step Any (init ω fs₀) s) : Own fs₀ s :=
  h.invariant (own_init ω fs₀) fun _ _ _ hO _ hs => hO.step hs

omit [DecidableEq ω] [DecidableEq ν] in
/-- When no process has a file, the names used are those of the files closed. -/
theorem Own.closed_of_idle (hO : Own fs₀ s) (hidle : ∀ w, s.current w = none) {n : ν}
    (hn : n ∉ s.closed.map Prod.fst) : s.fs.read n = fs₀.read n := by
  apply hO.rest n
  intro hmem
  obtain ⟨w, o, hw, _⟩ := (hO.cover n hmem).resolve_left hn
  rw [hidle w] at hw
  cases hw

end OsProjects.OwnFiles
