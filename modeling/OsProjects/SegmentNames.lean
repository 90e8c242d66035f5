import OsProjects.MemoryMoves
import OsProjects.SegmentPool

/-! # Names, objects and their users

The invariant of the shared memory model (`Names`): which names are bound to which objects, which
object a worker has opened or will open, and who wrote into it.  The results here say what each
kind of step does to it.  `shm_unlink` and `shm_open` of a call leave the names of the others alone
because the ids of two calls differ (`fldes_ne`), and `shm_open` of a worker finds the object of its
sender, because no handler leaves before its worker has opened the object (`names_message`). -/

namespace OsProjects.SharedMemory

open Monitor Transition

variable {κ ω : Type*} [DecidableEq κ]
variable {segments : ℕ} {E : κ → Channel.Env} {s s' : State κ ω} {k : κ} {w : ℤ}

/-! ### Names and objects -/

/-- The call's id is the name of its object. -/
def Stage.binds : Stage → Bool
  | mapped | unlink => true
  | _ => false

/-- What holds of a call at each stage. -/
def Stage.Ok (mem : Option ℕ) (pc : Proxy.CallPc) (hpc : Channel.HPc) : Stage → Prop
  | unlinkOld => mem = none ∧ hpc = .createLength
  | create => mem = none ∧ hpc = .createLength ∧ pc = .body
  | mapped => mem ≠ none ∧ pc = .body ∧ Proxy.released hpc = false
  | unlink => mem ≠ none ∧ pc = .body ∧ hpc = .release
  | unlinked => mem ≠ none ∧ (hpc = .release ∨ Proxy.released hpc = true)

/-- The writer is call `k` or the worker that serves it. -/
def Writer.Of (k : κ) : Writer κ → Prop
  | zeroed => True
  | handler j | worker j => j = k

/-- Names, objects and messages, and who reaches which. -/
structure Names (s : State κ ω) : Prop where
  stage : ∀ k, (s.stage k).Ok (s.mem k) (s.proxy.calls k).pc (s.proxy.calls k).chan.hpc
  binds : ∀ k, (s.stage k).binds = true → s.names (s.proxy.calls k).fldes = s.mem k
  bound : ∀ n o, s.names n = some o →
    ∃ k, (s.stage k).binds = true ∧ (s.proxy.calls k).fldes = n ∧ s.mem k = some o
  fresh : ∀ k o, s.mem k = some o → o < s.next
  injective : ∀ j k o, s.mem j = some o → s.mem k = some o → j = k
  opened : ∀ k o, s.wmem k = some o → s.mem k = some o
  unopened : ∀ k, s.wmem k = none →
    (s.proxy.calls k).chan.wpc = .get ∨ (s.proxy.calls k).chan.wpc = .zeroLength
  message : ∀ m, (m ∈ s.queue ∨ ∃ i, s.workers i = some m) →
    m.fldes = (s.proxy.calls m.sender).fldes ∧ (s.proxy.calls m.sender).chan.sent = true
  writers : ∀ k o, s.mem k = some o →
    (s.objects o).lengthWriter.Of k ∧ (s.objects o).writtenWriter.Of k

omit [DecidableEq κ] in
theorem Names.wake_wpc {o : ℕ} (hN : Names s) (hm : s.mem k = some o) :
    (if s.wmem k = some o then (s.proxy.calls k).chan.wpc.wake else (s.proxy.calls k).chan.wpc) =
      (s.proxy.calls k).chan.wpc.wake := by
  split
  · rfl
  · next hw =>
      cases hwk : s.wmem k with
      | none =>
          rcases hN.unopened k hwk with hg | hz
          · rw [hg]
            rfl
          · rw [hz]
            rfl
      | some o' =>
          rw [hwk, ← hm, hN.opened k o' hwk] at hw
          exact absurd rfl hw

theorem Names.handle_eq {o : ℕ} (hN : Names s) (hm : s.mem k = some o)
    (h : s.handle E k o w = some s') :
    ∃ ch, Channel.handlerStep (E k) ((s.objects o).view (s.proxy.calls k).chan) w = some ch ∧
      s' = { s with
        proxy := s.proxy.setCall k { s.proxy.calls k with chan := ch }
        objects := Function.update s.objects o
          ((s.objects o).store ch (s.proxy.calls k).chan.hpc.writesLength
            (s.proxy.calls k).chan.hpc.writesWritten (.handler k))
        queue := if (s.proxy.calls k).chan.hpc = .mqSend
          then s.queue ++ [⟨k, (s.proxy.calls k).fldes⟩] else s.queue } := by
  unfold State.handle at h
  obtain ⟨ch, hch, hs'⟩ := Option.map_eq_some_iff.mp h
  have hwpc : ch.wpc = if (s.proxy.calls k).chan.hpc.broadcasts then
      (s.proxy.calls k).chan.wpc.wake else (s.proxy.calls k).chan.wpc :=
    (Channel.frame_handlerStep hch).wpc
  refine ⟨ch, hch, hs'.symm.trans ?_⟩
  dsimp only
  by_cases hb : (s.proxy.calls k).chan.hpc.broadcasts = true
  · rw [if_pos hb, ← hN.wake_wpc hm] at hwpc
    rw [if_pos hb]
    unfold State.wakeWorkers
    congr 1
    refine proxy_ext rfl rfl rfl rfl rfl fun j => ?_
    rcases eq_or_ne j k with rfl | hj
    · simp only [mapChan, Proxy.setCall_self]
      by_cases hw : s.wmem j = some o
      · rw [if_pos hw] at hwpc
        rw [if_pos hw, ← hwpc]
      · rw [if_neg hw] at hwpc
        rw [if_neg hw, ← hwpc]
    · have hwj : s.wmem j ≠ some o := fun hw => hj (hN.injective j k o (hN.opened j o hw) hm)
      simp [mapChan, Proxy.setCall_of_ne _ _ _ hj, hwj]
  · rw [if_neg hb] at hwpc
    rw [if_neg hb, ← hwpc]

/-- A step of a worker that has its object mapped wakes the call that it serves alone. -/
theorem Names.serve_eq {o : ℕ} {r : ℤ} (hN : Names s) (hm : s.mem k = some o)
    (h : s.serve E k o r = some s') :
    ∃ ch, Channel.workerStep (E k) ((s.objects o).view (s.proxy.calls k).chan) r = some ch ∧
      s' = { s with
        proxy := s.proxy.setCall k { s.proxy.calls k with chan := ch }
        objects := Function.update s.objects o
          ((s.objects o).store ch (s.proxy.calls k).chan.wpc.writesLength
            (s.proxy.calls k).chan.wpc.writesWritten (.worker k)) } := by
  unfold State.serve at h
  obtain ⟨ch, hch, hs'⟩ := Option.map_eq_some_iff.mp h
  have hhpc : ch.hpc = if (s.proxy.calls k).chan.wpc.signals then
      (s.proxy.calls k).chan.hpc.wake else (s.proxy.calls k).chan.hpc :=
    (Channel.frame_workerStep hch).hpc
  refine ⟨ch, hch, hs'.symm.trans ?_⟩
  dsimp only
  by_cases hb : (s.proxy.calls k).chan.wpc.signals = true
  · rw [if_pos hb] at hhpc
    rw [if_pos hb]
    unfold State.wakeHandlers
    congr 1
    refine proxy_ext rfl rfl rfl rfl rfl fun j => ?_
    rcases eq_or_ne j k with rfl | hj
    · simp only [mapChan, Proxy.setCall_self, if_pos hm, ← hhpc]
    · have hmj : s.mem j ≠ some o := fun hmj => hj (hN.injective j k o hmj hm)
      simp [mapChan, Proxy.setCall_of_ne _ _ _ hj, hmj]
  · rw [if_neg hb] at hhpc
    rw [if_neg hb, ← hhpc]

/-! ### Changes of one part -/

omit [DecidableEq κ] in
theorem Stage.Ok.woken {st : Stage} {mem : Option ℕ} {pc pc' : Proxy.CallPc}
    {hpc hpc' : Channel.HPc} (h : st.Ok mem pc hpc) (hbody : pc = .body → pc' = .body)
    (hw : hpc' = hpc ∨ hpc' = hpc.wake) : st.Ok mem pc' hpc' := by
  have hrel : Proxy.released hpc' = Proxy.released hpc := by
    obtain rfl | rfl := hw
    · rfl
    · exact Proxy.released_wake _
  have hkeep : ∀ q, (∀ v, q ≠ Channel.HPc.waitLength v) → (∀ v, q ≠ Channel.HPc.waitChunk v) →
      hpc = q → hpc' = q := by
    intro q hl hc hq
    obtain rfl | rfl := hw
    · exact hq
    · exact (Channel.HPc.wake_eq_iff hl hc).mpr hq
  cases st with
  | unlinkOld => exact ⟨h.1, hkeep _ (by simp) (by simp) h.2⟩
  | create => exact ⟨h.1, hkeep _ (by simp) (by simp) h.2.1, hbody h.2.2⟩
  | mapped => exact ⟨h.1, hbody h.2.1, hrel.trans h.2.2⟩
  | unlink => exact ⟨h.1, hbody h.2.1, hkeep _ (by simp) (by simp) h.2.2⟩
  | unlinked =>
      refine ⟨h.1, h.2.imp (hkeep _ (by simp) (by simp)) fun hr => ?_⟩
      rw [hrel, hr]

omit [DecidableEq κ] in
theorem Names.calls {p : Proxy.State κ} (hN : Names s)
    (hstage : ∀ j, (s.stage j).Ok (s.mem j) (p.calls j).pc (p.calls j).chan.hpc)
    (hfldes : ∀ j, (s.stage j).binds = true ∨ (s.proxy.calls j).chan.sent = true →
      (p.calls j).fldes = (s.proxy.calls j).fldes)
    (hsent : ∀ j, (s.proxy.calls j).chan.sent = true → (p.calls j).chan.sent = true)
    (hwpc : ∀ j, s.wmem j = none →
      (p.calls j).chan.wpc = .get ∨ (p.calls j).chan.wpc = .zeroLength) :
    Names { s with proxy := p } where
  stage := hstage
  binds k hk := by
    rw [hfldes k (.inl hk)]
    exact hN.binds k hk
  bound n o hn := by
    obtain ⟨k, hk, hf, hm⟩ := hN.bound n o hn
    exact ⟨k, hk, (hfldes k (.inl hk)).trans hf, hm⟩
  fresh := hN.fresh
  injective := hN.injective
  opened := hN.opened
  unopened := hwpc
  message m hm := by
    obtain ⟨hf, hs⟩ := hN.message m hm
    exact ⟨hf.trans (hfldes m.sender (.inr hs)).symm, hsent m.sender hs⟩
  writers := hN.writers

theorem Names.setCall {c : Proxy.Call} (hN : Names s)
    (hstage : (s.stage k).Ok (s.mem k) c.pc c.chan.hpc) (hfldes : c.fldes = (s.proxy.calls k).fldes)
    (hsent : (s.proxy.calls k).chan.sent = true → c.chan.sent = true)
    (hwpc : s.wmem k = none → c.chan.wpc = .get ∨ c.chan.wpc = .zeroLength) :
    Names { s with proxy := s.proxy.setCall k c } := by
  refine hN.calls (fun j => ?_) (fun j _ => ?_) (fun j hs => ?_) (fun j hw => ?_) <;>
    rcases eq_or_ne j k with rfl | hj
  · simpa using hstage
  · simpa [Proxy.setCall_of_ne _ _ _ hj] using hN.stage j
  · simpa using hfldes
  · rw [Proxy.setCall_of_ne _ _ _ hj]
  · simpa using hsent hs
  · simpa [Proxy.setCall_of_ne _ _ _ hj] using hs
  · simpa using hwpc hw
  · simpa [Proxy.setCall_of_ne _ _ _ hj] using hN.unopened j hw

omit [DecidableEq κ] in
theorem Names.write {o : ℕ} {ob : Object κ} (hN : Names s) (hm : s.mem k = some o)
    (hob : ob.lengthWriter.Of k ∧ ob.writtenWriter.Of k) :
    Names { s with objects := Function.update s.objects o ob } := by
  refine { hN with writers := fun j o' hj => ?_ }
  rcases eq_or_ne o' o with rfl | ho
  · obtain rfl := hN.injective j k o' hj hm
    simpa using hob
  · simpa [ho] using hN.writers j o' hj

omit [DecidableEq κ] in
theorem Names.messages (hN : Names s) (q : List (Message κ)) (ws : ω → Option (Message κ))
    (h : ∀ m, (m ∈ q ∨ ∃ i, ws i = some m) →
      m.fldes = (s.proxy.calls m.sender).fldes ∧ (s.proxy.calls m.sender).chan.sent = true) :
    Names { s with queue := q, workers := ws } :=
  { hN with message := h }

omit [DecidableEq κ] in
theorem Names.oldMessages (hN : Names s) (q : List (Message κ)) (ws : ω → Option (Message κ))
    (h : ∀ m, (m ∈ q ∨ ∃ i, ws i = some m) → m ∈ s.queue ∨ ∃ i, s.workers i = some m) :
    Names { s with queue := q, workers := ws } :=
  hN.messages q ws fun m hm => hN.message m (h m hm)

omit [DecidableEq κ] in
/-- A step by call `k`, or by the worker that serves it, leaves no other writer. -/
theorem Object.store_writers {ob : Object κ} {t : Writer κ}
    (hob : ob.lengthWriter.Of k ∧ ob.writtenWriter.Of k) (ht : t.Of k) (c : Channel.State)
    (length written : Bool) : (ob.store c length written t).lengthWriter.Of k ∧
      (ob.store c length written t).writtenWriter.Of k := by
  constructor
  · cases length with
    | false => exact hob.1
    | true => exact ht
  · cases written with
    | false => exact hob.2
    | true => exact ht

/-! ### The proxy behind the names -/

omit [DecidableEq κ] in
theorem Names.gone (hN : Names s) (hq : (s.proxy.calls k).pc = .body → s.stage k = .unlinked)
    (hp : (s.proxy.calls k).pc = .body) : (s.proxy.calls k).chan.hpc = .release ∨
      Proxy.released (s.proxy.calls k).chan.hpc = true := by
  have hstage := hN.stage k
  rw [hq hp] at hstage
  exact hstage.2

omit [DecidableEq κ] in
theorem owner_of_body (hk : (s.proxy.calls k).pc = .body)
    (hk' : Proxy.released (s.proxy.calls k).chan.hpc = false) :
    (s.view E).pool.owner k = some (s.proxy.calls k).fldes := by
  have hpc : ((s.view E).calls k).pc = .body := hk
  have hrel : Proxy.released ((s.view E).calls k).chan.hpc = false := hk'
  simp only [Proxy.State.pool, Proxy.Call.held, hpc, hrel, Proxy.CallPc.owns]
  rfl

section proxy
variable (hN : Names s) (hR : Proxy.Reachable segments E (s.view E))

include hR in
theorem exclusive {j : κ} (hj : (s.proxy.calls j).pc = .body)
    (hj' : Proxy.released (s.proxy.calls j).chan.hpc = false) (hk : (s.proxy.calls k).pc = .body)
    (hk' : Proxy.released (s.proxy.calls k).chan.hpc = false)
    (hf : (s.proxy.calls j).fldes = (s.proxy.calls k).fldes) : j = k := by
  apply hR.pool.injective j k _ (owner_of_body (E := E) hj hj')
  rw [hf]
  exact owner_of_body (E := E) hk hk'

theorem Stage.Ok.inside {st : Stage} {mem : Option ℕ} {pc : Proxy.CallPc} {hpc : Channel.HPc}
    (h : st.Ok mem pc hpc) (hst : st ≠ .unlinked) : Proxy.released hpc = false := by
  cases st with
  | unlinkOld => rw [h.2]; rfl
  | create => rw [h.2.1]; rfl
  | mapped => exact h.2.2
  | unlink => rw [h.2.2]; rfl
  | unlinked => exact absurd rfl hst

theorem Stage.Ok.body {st : Stage} {mem : Option ℕ} {pc : Proxy.CallPc} {hpc : Channel.HPc}
    (h : st.Ok mem pc hpc) (hst : st.binds = true) : pc = .body ∧ Proxy.released hpc = false := by
  cases st with
  | mapped => exact h.2
  | unlink => exact ⟨h.2.1, by rw [h.2.2]; rfl⟩
  | _ => cases hst

include hN hR in
/-- The id of a call in the exchange is bound by no other call. -/
theorem fldes_ne (hp : (s.proxy.calls k).pc = .body) (hs : s.stage k ≠ .unlinked) {j : κ}
    (hj : (s.stage j).binds = true) (hjk : j ≠ k) :
    (s.proxy.calls j).fldes ≠ (s.proxy.calls k).fldes := by
  intro hf
  obtain ⟨hbody, hrel⟩ := (hN.stage j).body hj
  exact hjk (exclusive hR hbody hrel hp ((hN.stage k).inside hs) hf)

include hN hR in
theorem names_free (hp : (s.proxy.calls k).pc = .body) (hs : s.stage k = .create) :
    s.names (s.proxy.calls k).fldes = none := by
  cases hn : s.names (s.proxy.calls k).fldes with
  | none => rfl
  | some o =>
      obtain ⟨j, hj, hf, _⟩ := hN.bound _ o hn
      rcases eq_or_ne j k with rfl | hjk
      · rw [hs] at hj
        cases hj
      · exact absurd hf (fldes_ne hN hR hp (by rw [hs]; simp) hj hjk)

include hR in
theorem not_sent (hp : (s.proxy.calls k).chan.hpc = .createLength ∨
    (s.proxy.calls k).chan.hpc = .mqSend) : (s.proxy.calls k).chan.sent = false := by
  have hI := (hR.exchanges k).inv.handler
  rcases hp with hp | hp
  · have hhpc : ((s.view E).calls k).chan.hpc = .createLength := hp
    rw [hhpc] at hI
    exact hI.1
  · have hhpc : ((s.view E).calls k).chan.hpc = .mqSend := hp
    rw [hhpc] at hI
    exact hI.1

include hR in
theorem early_of_unopened
    (hw : (s.proxy.calls k).chan.wpc = .get ∨ (s.proxy.calls k).chan.wpc = .zeroLength) :
    (s.proxy.calls k).chan.hpc.early = true := by
  have hI := (hR.exchanges k).inv.worker
  rcases hw with hw | hw
  · have hwpc : ((s.view E).calls k).chan.wpc = .get := hw
    rw [hwpc] at hI
    exact hI.2.2.1
  · have hwpc : ((s.view E).calls k).chan.wpc = .zeroLength := hw
    rw [hwpc] at hI
    exact hI.2.2.2.2.1

include hN hR in
/-- The id in a message whose object no worker has opened is the name of the sender's object. -/
theorem names_message {m : Message κ} (hm : m ∈ s.queue ∨ ∃ i, s.workers i = some m)
    (hw : s.wmem m.sender = none) :
    s.mem m.sender ≠ none ∧ s.names m.fldes = s.mem m.sender := by
  obtain ⟨hf, hsent⟩ := hN.message m hm
  have hearly := early_of_unopened hR (hN.unopened m.sender hw)
  have hstage := hN.stage m.sender
  have hstart : (s.proxy.calls m.sender).chan.hpc ≠ .createLength := by
    intro hp
    rw [not_sent hR (.inl hp)] at hsent
    cases hsent
  cases hst : s.stage m.sender with
  | mapped =>
      rw [hst] at hstage
      rw [hf]
      exact ⟨hstage.1, hN.binds m.sender (by rw [hst]; rfl)⟩
  | unlinkOld =>
      rw [hst] at hstage
      exact absurd hstage.2 hstart
  | create =>
      rw [hst] at hstage
      exact absurd hstage.2.1 hstart
  | unlink =>
      rw [hst] at hstage
      rw [hstage.2.2] at hearly
      cases hearly
  | unlinked =>
      rw [hst] at hstage
      rcases hstage.2 with hr | hr
      · rw [hr] at hearly
        cases hearly
      · rw [not_released_of_early hearly] at hr
        cases hr

include hN hR in
theorem Names.quiet {p : Proxy.State κ} (hq : (s.proxy.calls k).pc = .body → s.stage k = .unlinked)
    (h : Proxy.callStep E s.proxy k w = some p) : Names { s with proxy := p } := by
  have hO := hR.callOk k
  unfold Proxy.Call.Ok at hO
  have hstage := hN.stage k
  obtain ⟨hfldes, hwpc, hsent, hhpc⟩ := quiet_self (hN.gone hq) h
  have hother : ∀ j ≠ k, (p.calls j).fldes = (s.proxy.calls j).fldes ∧
      (p.calls j).chan = (s.proxy.calls j).chan ∧
        ((s.proxy.calls j).pc = .body → (p.calls j).pc = .body) :=
    fun j hj => woken_same (Proxy.callStep_frame h j hj)
  refine hN.calls (fun j => ?_) (fun j hj => ?_) (fun j hs => ?_) (fun j hw => ?_)
  · rcases eq_or_ne j k with rfl | hjk
    · cases hst : s.stage j with
      | unlinkOld =>
          rw [hst] at hstage
          rcases hhpc with hhpc | ⟨hp | hp, _⟩
          · exact ⟨hstage.1, hhpc.trans hstage.2⟩
          · have hun := hq hp
            rw [hst] at hun
            cases hun
          · have hpc : ((s.view E).calls j).pc = .broadcastRead := hp
            simp only [hpc] at hO
            have hrel : (s.proxy.calls j).chan.hpc = .release := hO.1
            rw [hstage.2] at hrel
            cases hrel
      | unlinked =>
          rw [hst] at hstage
          rcases hhpc with hhpc | ⟨_, hrel⟩
          · rw [hhpc]
            exact hstage
          · exact ⟨hstage.1, .inr hrel⟩
      | create | mapped | unlink =>
          rw [hst] at hstage
          have hun := hq (by first | exact hstage.2.2 | exact hstage.2.1)
          rw [hst] at hun
          cases hun
    · obtain ⟨_, hchan, hbody⟩ := hother j hjk
      exact (hN.stage j).woken hbody (.inl (by rw [hchan]))
  · rcases eq_or_ne j k with rfl | hjk
    · apply hfldes
      intro hpop
      rcases hj with hj | hj
      · obtain ⟨hbody, _⟩ := hstage.body hj
        rw [hpop] at hbody
        cases hbody
      · have hpc : ((s.view E).calls j).pc = .pop := hpop
        simp only [hpc] at hO
        rw [not_sent hR (.inl hO.1)] at hj
        cases hj
    · exact (hother j hjk).1
  · rcases eq_or_ne j k with rfl | hjk
    · rw [hsent, hs]
    · rw [(hother j hjk).2.1, hs]
  · rcases eq_or_ne j k with rfl | hjk
    · rw [hwpc]
      exact hN.unopened j hw
    · rw [(hother j hjk).2.1]
      exact hN.unopened j hw

end proxy

/-! ### Changes of names -/

theorem Names.unlinkName {st : Stage} (hN : Names s) (hR : Proxy.Reachable segments E (s.view E))
    (hp : (s.proxy.calls k).pc = .body) (hs : s.stage k ≠ .unlinked) (hst : st.binds = false)
    (hok : st.Ok (s.mem k) (s.proxy.calls k).pc (s.proxy.calls k).chan.hpc) :
    Names { s with
      names := Function.update s.names (s.proxy.calls k).fldes none
      stage := Function.update s.stage k st } := by
  refine { hN with stage := fun j => ?_, binds := fun j hj => ?_, bound := fun n o hn => ?_ }
  · dsimp only
    rcases eq_or_ne j k with rfl | hjk
    · rw [Function.update_self]
      exact hok
    · rw [Function.update_of_ne hjk]
      exact hN.stage j
  · rcases eq_or_ne j k with rfl | hjk
    · simp [hst] at hj
    · simp only [Function.update_of_ne hjk] at hj
      have hne := fldes_ne hN hR hp hs hj hjk
      simpa [hne] using hN.binds j hj
  · rcases eq_or_ne n (s.proxy.calls k).fldes with rfl | hne
    · simp at hn
    · simp only [Function.update_of_ne hne] at hn
      obtain ⟨j, hj, hf, hm⟩ := hN.bound n o hn
      have hjk : j ≠ k := by
        rintro rfl
        exact hne hf.symm
      exact ⟨j, by simpa [hjk] using hj, hf, hm⟩

theorem Names.unmap (hN : Names s) (hp : (s.proxy.calls k).pc = .body) (hs : s.stage k = .mapped)
    (hr : (s.proxy.calls k).chan.hpc = .release) :
    Names { s with stage := Function.update s.stage k .unlink } := by
  have hstage := hN.stage k
  rw [hs] at hstage
  refine { hN with stage := fun j => ?_, binds := fun j hj => ?_, bound := fun n o hn => ?_ }
  · dsimp only
    rcases eq_or_ne j k with rfl | hjk
    · rw [Function.update_self]
      exact ⟨hstage.1, hp, hr⟩
    · rw [Function.update_of_ne hjk]
      exact hN.stage j
  · rcases eq_or_ne j k with rfl | hjk
    · exact hN.binds j (by rw [hs]; rfl)
    · simp only [Function.update_of_ne hjk] at hj
      exact hN.binds j hj
  · obtain ⟨j, hj, hf, hm⟩ := hN.bound n o hn
    refine ⟨j, ?_, hf, hm⟩
    dsimp only
    rcases eq_or_ne j k with rfl | hjk
    · rw [Function.update_self]
      rfl
    · rw [Function.update_of_ne hjk]
      exact hj

theorem Names.create (hN : Names s) (hR : Proxy.Reachable segments E (s.view E))
    (hp : (s.proxy.calls k).pc = .body) (hs : s.stage k = .create) :
    Names { s with
      names := Function.update s.names (s.proxy.calls k).fldes (some s.next)
      objects := Function.update s.objects s.next (zeroFilled (E k))
      next := s.next + 1
      mem := Function.update s.mem k (some s.next)
      stage := Function.update s.stage k .mapped } := by
  have hstage := hN.stage k
  rw [hs] at hstage
  obtain ⟨hnone, hstart, _⟩ := hstage
  have hold : ∀ j o, j ≠ k → Function.update s.mem k (some s.next) j = some o →
      s.mem j = some o ∧ o < s.next := by
    intro j o hj hm
    rw [Function.update_of_ne hj] at hm
    exact ⟨hm, hN.fresh j o hm⟩
  have hnew : ∀ o, Function.update s.mem k (some s.next) k = some o → o = s.next := by
    intro o hm
    rw [Function.update_self] at hm
    exact (Option.some.inj hm).symm
  constructor
  · intro j
    dsimp only
    rcases eq_or_ne j k with rfl | hj
    · rw [Function.update_self, Function.update_self]
      exact ⟨by simp, hp, by rw [hstart]; rfl⟩
    · rw [Function.update_of_ne hj, Function.update_of_ne hj]
      exact hN.stage j
  · intro j hj
    dsimp only at hj ⊢
    rcases eq_or_ne j k with rfl | hjk
    · simp
    · rw [Function.update_of_ne hjk] at hj
      have hne := fldes_ne hN hR hp (by rw [hs]; simp) hj hjk
      rw [Function.update_of_ne hne, Function.update_of_ne hjk]
      exact hN.binds j hj
  · intro n o hn
    dsimp only at hn ⊢
    rcases eq_or_ne n (s.proxy.calls k).fldes with rfl | hne
    · rw [Function.update_self] at hn
      exact ⟨k, by simp [Stage.binds], rfl, by simpa using hn⟩
    · rw [Function.update_of_ne hne] at hn
      obtain ⟨j, hj, hf, hm⟩ := hN.bound n o hn
      have hjk : j ≠ k := by
        rintro rfl
        exact hne hf.symm
      exact ⟨j, by simpa [hjk] using hj, hf, by simpa [hjk] using hm⟩
  · intro j o hm
    dsimp only at hm ⊢
    rcases eq_or_ne j k with rfl | hj
    · have ho := hnew o hm
      omega
    · have ho := (hold j o hj hm).2
      omega
  · intro i j o hi hj
    dsimp only at hi hj
    rcases eq_or_ne i k with rfl | hik
    · by_contra hne
      have hlt := (hold j o (Ne.symm hne) hj).2
      have ho := hnew o hi
      omega
    · rcases eq_or_ne j k with rfl | hjk
      · have hlt := (hold i o hik hi).2
        have ho := hnew o hj
        omega
      · exact hN.injective i j o (hold i o hik hi).1 (hold j o hjk hj).1
  · intro j o hw
    dsimp only at hw ⊢
    have hm := hN.opened j o hw
    have hj : j ≠ k := by
      rintro rfl
      rw [hnone] at hm
      cases hm
    rw [Function.update_of_ne hj, hm]
  · exact hN.unopened
  · exact hN.message
  · intro j o hm
    dsimp only at hm ⊢
    rcases eq_or_ne j k with rfl | hj
    · obtain rfl := hnew o hm
      rw [Function.update_self]
      exact ⟨trivial, trivial⟩
    · obtain ⟨hm, hlt⟩ := hold j o hj hm
      rw [Function.update_of_ne (Nat.ne_of_lt hlt)]
      exact hN.writers j o hm

/-! ### Steps of the threads -/

theorem Names.handle {o : ℕ} (hN : Names s) (hs : s.stage k = .mapped) (hm : s.mem k = some o)
    (hr : (s.proxy.calls k).chan.hpc ≠ .release) (h : s.handle E k o w = some s') : Names s' := by
  obtain ⟨ch, hch, rfl⟩ := hN.handle_eq hm h
  have hframe := Channel.frame_handlerStep hch
  have hrel := Proxy.released_handlerStep hch hr
  have hsent : ch.sent = true ↔ (s.proxy.calls k).chan.sent = true ∨
      (s.proxy.calls k).chan.hpc = .mqSend := hframe.sent
  have hwpc : ch.wpc = if (s.proxy.calls k).chan.hpc.broadcasts then
      (s.proxy.calls k).chan.wpc.wake else (s.proxy.calls k).chan.wpc := hframe.wpc
  have hstage := hN.stage k
  rw [hs] at hstage
  have hcall : Names { s with
      proxy := s.proxy.setCall k { s.proxy.calls k with chan := ch } } := by
    refine hN.setCall ?_ rfl (fun h => hsent.mpr (.inl h)) fun hw => ?_
    · rw [hs]
      exact ⟨hstage.1, hstage.2.1, hrel.trans hstage.2.2⟩
    · rw [show ({ s.proxy.calls k with chan := ch } : Proxy.Call).chan.wpc = ch.wpc from rfl, hwpc]
      rcases hN.unopened k hw with hg | hz
      · rw [hg]
        exact .inl (by split <;> rfl)
      · rw [hz]
        exact .inr (by split <;> rfl)
  have hqueue := hcall.messages (if (s.proxy.calls k).chan.hpc = .mqSend
    then s.queue ++ [⟨k, (s.proxy.calls k).fldes⟩] else s.queue) s.workers fun m hmsg => ?_
  · have hown : (Writer.handler k).Of k := rfl
    exact hqueue.write hm (Object.store_writers (hN.writers k o hm) hown ch _ _)
  · split at hmsg
    · next hp =>
        rcases hmsg with hmem | hi
        · rcases List.mem_append.mp hmem with hmem | hmem
          · exact hcall.message m (.inl hmem)
          · obtain rfl := List.mem_singleton.mp hmem
            simpa using hsent.mpr (.inr hp)
        · exact hcall.message m (.inr hi)
    · exact hcall.message m hmsg

theorem Names.serve {o : ℕ} {r : ℤ} (hN : Names s) (hw : s.wmem k = some o)
    (h : s.serve E k o r = some s') : Names s' := by
  have hm := hN.opened k o hw
  obtain ⟨ch, hch, rfl⟩ := hN.serve_eq hm h
  have hframe := Channel.frame_workerStep hch
  have hsent : ch.sent = (s.proxy.calls k).chan.sent := hframe.sent
  have hhpc := Proxy.hpc_workerStep hch
  have hcall : Names { s with
      proxy := s.proxy.setCall k { s.proxy.calls k with chan := ch } } := by
    refine hN.setCall ((hN.stage k).woken id hhpc) rfl (fun h => hsent.trans h) fun hnone => ?_
    rw [hw] at hnone
    cases hnone
  have hown : (Writer.worker k).Of k := rfl
  exact hcall.write hm (Object.store_writers (hN.writers k o hm) hown ch _ _)

theorem Names.get {E : Channel.Env} {r : ℤ} {ch : Channel.State} (hN : Names s)
    (hp : (s.proxy.calls k).chan.wpc = .get)
    (h : Channel.workerStep E (s.proxy.calls k).chan r = some ch) :
    Names { s with proxy := s.proxy.setCall k { s.proxy.calls k with chan := ch } } := by
  have hwpc : ch.wpc = .zeroLength := by
    unfold Channel.workerStep at h
    simp only [hp, Option.ite_none_right_eq_some] at h
    obtain ⟨_, h⟩ := h
    obtain rfl := Option.some.inj h
    rfl
  exact hN.setCall ((hN.stage k).woken id (Proxy.hpc_workerStep h)) rfl
    (fun hs => (Channel.frame_workerStep h).sent.trans hs) fun _ => .inr hwpc

theorem Names.openMessage {i : ω} {m : Message κ} {o : ℕ} (hN : Names s)
    (hR : Proxy.Reachable segments E (s.view E)) (hi : s.workers i = some m)
    (hw : s.wmem m.sender = none) (hn : s.names m.fldes = some o) :
    Names { s with wmem := Function.update s.wmem m.sender (some o) } := by
  obtain ⟨_, hnames⟩ := names_message hN hR (.inr ⟨i, hi⟩) hw
  rw [hn] at hnames
  refine { hN with opened := fun k o' hk => ?_, unopened := fun k hk => ?_ }
  · dsimp only at hk
    rcases eq_or_ne k m.sender with rfl | hne
    · rw [Function.update_self] at hk
      exact hnames.symm.trans hk
    · rw [Function.update_of_ne hne] at hk
      exact hN.opened k o' hk
  · dsimp only at hk
    rcases eq_or_ne k m.sender with rfl | hne
    · rw [Function.update_self] at hk
      cases hk
    · rw [Function.update_of_ne hne] at hk
      exact hN.unopened k hk

end OsProjects.SharedMemory
