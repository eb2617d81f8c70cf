/-
# PwsaStar.Pwsa.Progress — wPWSA* cannot get stuck.

From every reachable configuration some finite continuation ends with every worker returned, provided
the destination can be reached at all.  The continuation is built in three stages, each of which runs
one worker at a time:

* while the destination is not expanded, there is an entry somewhere or a worker in the middle of a
  vertex; whoever holds it can be driven to lower the potential (`expand_progress`);
* once it is expanded, the worker that marked it sets `is_done`;
* with `is_done` set, every worker can be driven to return, one after the other
  (`return_progress`).
-/
import PwsaStar.Pwsa.Potential
import PwsaStar.Pwsa.Done

namespace PwsaStar.Pwsa

open PwsaStar.Lib PwsaStar.Lib.Handshake PwsaStar.Heap PwsaStar.ParallelWhile

variable {W V : Type*} [DecidableEq V] [Fintype V] [DecidableEq W] [Fintype W]

/-- The potential of a configuration. -/
def pot (P : Problem V) (c : SearchConfig W V) : ℕ := potential P (poolView c)

variable {block : ℕ → KV Dist V} {P : Problem V} {leader : W}

/-- Worker `w` runs alone from `c` to `c'`. -/
structure Alone (block : ℕ → KV Dist V) (P : Problem V) (leader w : W) (c c' : SearchConfig W V) :
    Prop where
  steps : (pwsaPc block P leader).Steps c c'
  others : ∀ v, v ≠ w → c'.pc v = c.pc v
  flag : c'.isDone = c.isDone

omit [Fintype V] [Fintype W] in
theorem Alone.trans {w : W} {c₁ c₂ c₃ : SearchConfig W V} (h₁ : Alone block P leader w c₁ c₂)
    (h₂ : Alone block P leader w c₂ c₃) : Alone block P leader w c₁ c₃ where
  steps := h₁.steps.trans h₂.steps
  others v hv := (h₂.others v hv).trans (h₁.others v hv)
  flag := h₂.flag.trans h₁.flag

/-! ## Inside `do_work` -/

/-- Control steps leave the potential alone. -/
theorem pot_advance {w : W} {c c' : SearchConfig W V} (I : ParallelWhile.Inv ValidHeap.entries c)
    (h : advance (client .pwsa_pc block P) leader w c = some c') : pot P c' = pot P c := by
  obtain ⟨hout, hin⟩ := advance_work h
  have hset := potential_setFrame P (poolView c) w (frameOf (c'.pc w))
  have hold : (poolView c).frames w = none := hout
  have hnew : frameCost P (frameOf (c'.pc w)) = 0 := by
    rcases hin with hin | hin <;> rw [hin] <;> rfl
  rw [hold, hnew] at hset
  unfold pot
  rw [poolView_advance I h]
  exact hset

variable (block leader) in
/-- An access as a step of the machine. -/
theorem access_step {w : W} {x : Bool} {c : SearchConfig W V} {b : Frame V} {m : Shared W V}
    {effect : Effect V} (hpc : c.pc w = .work b) (hb : Guarded b)
    (h : access .pwsa_pc P w x c.shared b = some (m, effect)) :
    ∃ c', Alone block P leader w c c' ∧ c'.pc w = afterBody effect.result ∧ c'.shared = m ∧
      (pot P c' < pot P c ∨ pot P c' = pot P c ∧ m = c.shared ∧ Idles m b effect) := by
  obtain ⟨l, f, hrun⟩ := doWork_of_access (c.loc w) (c.myFrontier w) h
  have hentries : f.entries = effect.inserted + (c.myFrontier w).entries := by
    rcases doWork_cases hrun with ⟨n, v, rfl, -⟩ | ⟨n, rfl, -⟩ | ⟨effect', haccess, hent, -⟩
    · cases h
    · cases h
    · rw [h] at haccess
      cases haccess
      exact hent
  refine ⟨({ c.setMine w l f with shared := m }).goto w (afterBody effect.result), ⟨?_, ?_, rfl⟩, ?_,
    rfl, ?_⟩
  · refine System.Steps.single ⟨(w, .choose x), ?_⟩
    simp only [next, hpc]
    show (doWork .pwsa_pc P w x c.shared (c.loc w) (c.myFrontier w) b).map _ = _
    rw [hrun]
    rfl
  · intro v hv
    simp [Config.goto, Config.setMine, hv]
  · simp [Config.goto]
  · have hview := poolView_body c w m l f (afterBody effect.result)
      (effect.inserted + total ValidHeap.entries c) (by rw [hentries]; abel)
    have hpot := potential_access P (poolView c) w m effect.inserted effect.frame
    have hold : (poolView c).frames w = some b := by simp [poolView, hpc, frameOf]
    rw [frameOf_afterBody] at hview
    rw [hold] at hpot
    unfold pot
    rw [hview]
    rcases access_potential (by decide) hb h with hlt | ⟨rfl, hins, hcost, hidle⟩
    · apply Or.inl
      have hmem : (poolView c).mem = c.shared := rfl
      rw [← hmem] at hlt
      exact Nat.lt_of_add_lt_add_right (hpot.trans_lt (Nat.add_lt_add_left hlt _))
    · refine Or.inr ⟨Nat.add_right_cancel (hpot.trans ?_), rfl, hidle⟩
      rw [hins, Multiset.card_zero, hcost]
      rfl

omit [Fintype V] [DecidableEq W] [Fintype W] in
/-- `pwsa_pc` never leaves the program inside `do_work`. -/
theorem access_some (w : W) (x : Bool) (m : Shared W V) {b : Frame V} (hb : ∀ n, b ≠ .loop n) :
    ∃ m' effect, access .pwsa_pc P w x m b = some (m', effect) := by
  cases b with
  | loop n => exact absurd rfl (hb n)
  | relax steps v vdistance arcs =>
    cases arcs with
    | nil => exact ⟨_, _, rfl⟩
    | cons arc arcs =>
      simp only [access, reduceCtorEq, if_false]
      split <;> exact ⟨_, _, rfl⟩
  | loadExpanded | reload => exact ⟨_, _, rfl⟩
  | casExpanded =>
    simp only [access]
    repeat' split
    all_goals exact ⟨_, _, rfl⟩
  | loadG => exact ⟨_, _, by simp only [access, reduceCtorEq, false_and, if_false]; rfl⟩
  | casG =>
    simp only [access]
    repeat' split
    all_goals exact ⟨_, _, rfl⟩
  | checkInsert =>
    simp only [access]
    split <;> exact ⟨_, _, rfl⟩

variable (block P leader) in
/-- An exchange that expects what it will find lowers the potential. -/
theorem exchange_progress {w : W} {c : SearchConfig W V} {steps : ℤ} {v : V} {vdistance : Dist}
    {arc : V × ℤ} {arcs : List (V × ℤ)}
    (hpc : c.pc w = .work (.casG steps v vdistance arc arcs (c.shared.gpred arc.1)))
    (hb : Guarded (.casG steps v vdistance arc arcs (c.shared.gpred arc.1))) :
    ∃ c', Alone block P leader w c c' ∧ pot P c' < pot P c := by
  have h : access .pwsa_pc P w true c.shared
      (.casG steps v vdistance arc arcs (c.shared.gpred arc.1)) = some
        (c.shared.exchange arc.1 ⟨vdistance + (arc.2 : Dist), some v⟩,
          .goto (.checkInsert steps v vdistance arc arcs)) := by
    simp [access]
  obtain ⟨c', halone, -, -, hlt | ⟨-, -, hidle⟩⟩ := access_step block leader hpc hb h
  · exact ⟨c', halone, hlt⟩
  · rcases hidle with ⟨_, _, _, _, _, hb', -⟩ | ⟨_, _, _, _, _, _, -, heffect⟩
    · cases hb'
    · cases heffect

variable (block P leader) in
/-- A worker in front of an arc lowers the potential in one or two accesses. -/
theorem relax_progress {w : W} {c : SearchConfig W V} {steps : ℤ} {v : V} {vdistance : Dist}
    {arcs : List (V × ℤ)} (hpc : c.pc w = .work (.relax steps v vdistance arcs)) :
    ∃ c', Alone block P leader w c c' ∧ pot P c' < pot P c := by
  obtain ⟨m, effect, h⟩ := access_some (P := P) w true c.shared
    (b := .relax steps v vdistance arcs) (by simp)
  obtain ⟨c', halone, hpc', hm, hlt | ⟨heq, rfl, hidle⟩⟩ :=
    access_step block leader hpc trivial h
  · exact ⟨c', halone, hlt⟩
  · rcases hidle with ⟨steps', v', vd', arc, arcs', hb', rfl⟩ | ⟨_, _, _, _, _, _, hb', -⟩
    · have hguard := access_guarded (by decide) (b := .relax steps v vdistance arcs) trivial h rfl
      have hpc'' : c'.pc w = .work (.casG steps' v' vd' arc arcs' (c'.shared.gpred arc.1)) := by
        rw [hpc', hm]
        rfl
      obtain ⟨c'', halone', hlt⟩ := exchange_progress block P leader hpc''
        (by rw [hm]; exact hguard)
      exact ⟨c'', halone.trans halone', by omega⟩
    · cases hb'

variable (block P leader) in
/-- **A worker in the middle of a vertex lowers the potential.** -/
theorem work_progress {w : W} {c : SearchConfig W V} {b : Frame V} (hpc : c.pc w = .work b)
    (hb : Guarded b) (hloop : ∀ n, b ≠ .loop n) :
    ∃ c', Alone block P leader w c c' ∧ pot P c' < pot P c := by
  obtain ⟨m, effect, h⟩ := access_some (P := P) w true c.shared hloop
  obtain ⟨c', halone, hpc', -, hlt | ⟨heq, -, hidle⟩⟩ :=
    access_step block leader hpc hb h
  · exact ⟨c', halone, hlt⟩
  · rcases hidle with ⟨_, _, _, _, _, rfl, -⟩ | ⟨steps, v, vdistance, arc, arcs, _, -, rfl⟩
    · exact relax_progress block P leader hpc
    · -- the exchange was lost: the worker is in front of the arc again
      obtain ⟨c'', halone', hlt⟩ := relax_progress block P leader hpc'
      exact ⟨c'', halone.trans halone', by omega⟩

/-! ## Driving whoever holds an entry to pop it -/

/-- `w` holds an entry, or will as soon as it has swapped in its mailbox or the input. -/
def Carries (leader : W) (c : SearchConfig W V) (w : W) : Prop :=
  (¬ (c.pc w).idle ∧ (c.myFrontier w).entries ≠ 0) ∨
  (Collects c w ∧ (c.frontiers w).entries ≠ 0) ∨
  (c.pc w = .start ∧ w = leader ∧ c.input.entries ≠ 0)

/-- How far a worker that carries an entry is from its body. -/
def toWork {B : Type*} : Pc W B → ℕ
  | .spinDone _ => 16
  | .spinLoad _ => 15
  | .recheck => 14
  | .swapMailbox => 13
  | .start => 12
  | .loopTest => 11
  | .callSize => 10
  | .callSizeAgain => 9
  | .respondLoad _ => 8
  | .fork _ => 7
  | .transfer _ | .reject _ => 6
  | .reopen | .unblock => 5
  | _ => 0

omit [DecidableEq V] [Fintype V] [Fintype W] in
theorem carries_goto {c : SearchConfig W V} {w : W} {p : Pc W (Frame V)} (hp : ¬ p.idle)
    (h : (c.myFrontier w).entries ≠ 0) : Carries leader (c.goto w p) w :=
  Or.inl ⟨by simpa [Config.goto] using hp, h⟩

omit [Fintype V] [Fintype W] in
/-- A worker with entries is on its way to its body. -/
theorem carry_mine {c : SearchConfig W V} {w : W} (I : ParallelWhile.Inv ValidHeap.entries c)
    (D : DoneInv P leader c) (hdone : c.isDone = false)
    (hdest : c.shared.isExpanded P.destination = false) (hmine : (c.myFrontier w).entries ≠ 0)
    (hidle : ¬ (c.pc w).idle) (hwork : ∀ b, c.pc w ≠ .work b) :
    ∃ c', advance (client .pwsa_pc block P) leader w c = some c' ∧ Carries leader c' w ∧
      toWork (c'.pc w) < toWork (c.pc w) := by
  have hK := client_lawful (W := W) .pwsa_pc block P
  have hsize : ∀ l, ((client (W := W) .pwsa_pc block P).sizeInput l (c.myFrontier w)).1 ≠ .empty :=
    fun l h => hmine ((hK.size l _).mp h)
  cases hpc : c.pc w <;> simp only [hpc, Pc.idle, not_true_eq_false] at hidle <;>
    simp only [advance, hpc]
  case start => exact absurd (D.waiting w hpc) hmine
  case loopTest =>
    refine ⟨_, rfl, ?_, ?_⟩ <;> rw [hdone]
    · exact carries_goto id hmine
    · simp [Config.goto, toWork]
  case callSize =>
    refine ⟨_, rfl, ?_, ?_⟩ <;> rw [if_neg (hsize _)]
    · exact carries_goto id (by simpa [Config.setMine] using hmine)
    · simp [Config.goto, toWork]
  case callSizeAgain =>
    refine ⟨_, rfl, carries_goto id (by simpa [Config.setMine] using hmine), ?_⟩
    simp [Config.goto, toWork]
  case respondLoad sz =>
    cases c.requests w with
    | blocked | waiting => exact ⟨_, rfl, carries_goto id hmine, by simp [Config.goto, toWork]⟩
    | «from» other =>
      refine ⟨_, rfl, ?_, ?_⟩
      · split <;> exact carries_goto id hmine
      · split <;> simp [Config.goto, toWork]
  case unblock => exact ⟨_, rfl, carries_goto id hmine, by simp [Config.goto, toWork]⟩
  case fork other =>
    obtain ⟨src, dst, hrun, -, hpos, -⟩ := ValidHeap.split_empty (c.myFrontier w) (c.frontiers other)
      ((ValidHeap.entries_eq_zero_iff _).mp (I.fork_empty hpc))
    have hfork : (client (W := W) .pwsa_pc block P).forkInput (c.loc w) (c.myFrontier w)
        (c.frontiers other) = some (0, src, dst) := by
      show (ValidHeap.split (c.myFrontier w) (c.frontiers other)).map _ = _
      rw [hrun]
      rfl
    rw [hfork]
    refine ⟨_, rfl, carries_goto id ?_, by simp [Config.goto, toWork]⟩
    -- the splitting worker keeps a part of its entries
    have hsrc : 0 < src.size :=
      hpos (Nat.pos_of_ne_zero fun h => hmine ((ValidHeap.entries_eq_zero_iff _).mpr h))
    simp only [Config.setMine, Function.update_self]
    rw [Ne, ValidHeap.entries_eq_zero_iff]
    omega
  case transfer | reject => exact ⟨_, rfl, carries_goto id hmine, by simp [Config.goto, toWork]⟩
  case reopen => exact ⟨_, rfl, carries_goto id hmine, by simp [Config.goto, toWork]⟩
  case work b => exact absurd hpc (hwork b)
  case setDone => exact absurd (D.setting w hpc) (by simp [hdest])
  case returned => exact absurd (I.returned w hpc) (by simp [hdone])

omit [DecidableEq V] [Fintype V] [Fintype W] in
theorem collects_goto {c : SearchConfig W V} {w : W} {p : Pc W (Frame V)}
    (ha : c.answers w = .transferred)
    (hp : (∃ k, p = .spinLoad k ∨ p = .spinDone k) ∨ p = .recheck ∨ p = .swapMailbox)
    (h : (c.frontiers w).entries ≠ 0) : Carries leader (c.goto w p) w := by
  refine Or.inr (Or.inl ⟨⟨ha, ?_⟩, h⟩)
  simpa [Polls, Config.goto] using hp

omit [Fintype V] [Fintype W] in
variable (block) in
/-- **Carrying an entry is kept by the worker's own steps**, which lead to its body. -/
theorem carry_step {c : SearchConfig W V} {w : W} (I : ParallelWhile.Inv ValidHeap.entries c)
    (D : DoneInv P leader c) (hdone : c.isDone = false)
    (hdest : c.shared.isExpanded P.destination = false) (hcarry : Carries leader c w)
    (hwork : ∀ b, c.pc w ≠ .work b) :
    ∃ c', advance (client .pwsa_pc block P) leader w c = some c' ∧ Carries leader c' w ∧
      toWork (c'.pc w) < toWork (c.pc w) := by
  rcases hcarry with ⟨hidle, hmine⟩ | ⟨⟨ha, hpc⟩, hbox⟩ | ⟨hpc, rfl, hinput⟩
  · exact carry_mine I D hdone hdest hmine hidle hwork
  · rcases hpc with ⟨k, hpc | hpc⟩ | hpc | hpc <;> simp only [advance, hpc]
    · refine ⟨_, rfl, ?_, ?_⟩ <;> rw [if_neg (by simp [ha])]
      · exact collects_goto ha (by simp) hbox
      · simp [Config.goto, toWork]
    · refine ⟨_, rfl, ?_, ?_⟩ <;> rw [if_neg (by simp [hdone])]
      · exact collects_goto ha (by simp) hbox
      · simp [Config.goto, toWork]
    · refine ⟨_, rfl, ?_, ?_⟩ <;> rw [if_pos ha]
      · exact collects_goto ha (by simp) hbox
      · simp [Config.goto, toWork]
    · refine ⟨_, rfl, carries_goto id ?_, by simp [Config.goto, toWork]⟩
      simpa using hbox
  · simp only [advance, hpc, if_true]
    refine ⟨_, rfl, carries_goto id ?_, by simp [Config.goto, toWork]⟩
    simpa using hinput

/-- What holds in every configuration of a run of `pwsa_pc`. -/
structure RunInv (P : Problem V) (leader : W) (c : SearchConfig W V) : Prop where
  machine : ParallelWhile.Inv ValidHeap.entries c
  done : DoneInv P leader c
  path : PathInv .pwsa_pc P (poolView c)
  track : TrackInv P (poolView c)

omit [Fintype V] in
theorem reachable_runInv {c : SearchConfig W V} (hc : (pwsaPc block P leader).Reachable c) :
    RunInv P leader c where
  machine := reachable_inv (client_lawful .pwsa_pc block P) hc
  done := reachable_doneInv hc
  path := reachable_pathInv (Or.inl (by decide)) ((search_refines .pwsa_pc block P leader).reachable hc)
  track := reachable_trackInv (by decide) ((search_refines .pwsa_pc block P leader).reachable hc)

omit [Fintype V] [Fintype W] in
/-- A control step as a step of the run. -/
theorem step_advance {w : W} {c c' : SearchConfig W V}
    (h : advance (client .pwsa_pc block P) leader w c = some c') :
    (pwsaPc block P leader).step c c' := ⟨(w, .step), h⟩

/-- Where `carry_run` is while it is on its way: nothing has been popped yet. -/
structure Carrying (block : ℕ → KV Dist V) (P : Problem V) (leader w : W) (c t : SearchConfig W V) :
    Prop where
  reachable : (pwsaPc block P leader).Reachable t
  pot : pot P t = pot P c
  carries : Carries leader t w
  dest : t.shared.isExpanded P.destination = false
  frame : frameOf (t.pc w) = none ∨ frameOf (t.pc w) = some (.loop 0)

theorem Carrying.step {c t : SearchConfig W V} {w : W} (h : Carrying block P leader w c t)
    (hout : frameOf (t.pc w) = none) :
    ∃ t', (pwsaPc block P leader).step t t' ∧ Carrying block P leader w c t' ∧
      toWork (t'.pc w) < toWork (t.pc w) := by
  have R := reachable_runInv h.reachable
  have hdone : t.isDone = false := by
    cases hflag : t.isDone
    · rfl
    · exact absurd (R.done.flagged hflag) (by simp [h.dest])
  have hwork : ∀ b, t.pc w ≠ .work b := by
    intro b hb
    simp [hb, frameOf] at hout
  obtain ⟨t', hadv, hcarry', hlt⟩ :=
    carry_step block R.machine R.done hdone h.dest h.carries hwork
  have hstep := step_advance hadv
  refine ⟨t', hstep, ⟨h.reachable.step hstep, ?_, hcarry', ?_, (advance_work hadv).2⟩, hlt⟩
  · rw [pot_advance R.machine hadv, h.pot]
  · rw [(advance_frame hadv).1]
    exact h.dest

/-- A worker that carries an entry reaches its body, at the same potential. -/
theorem carry_run {c : SearchConfig W V} {w : W} (hc : (pwsaPc block P leader).Reachable c)
    (hdest : c.shared.isExpanded P.destination = false) (hcarry : Carries leader c w)
    (hout : frameOf (c.pc w) = none) :
    ∃ c', (pwsaPc block P leader).Steps c c' ∧ pot P c' = pot P c ∧
      c'.pc w = .work (.loop 0) ∧ (c'.myFrontier w).entries ≠ 0 := by
  have hprog : ∀ t, Carrying block P leader w c t → ¬ frameOf (t.pc w) ≠ none →
      ∃ t', (pwsaPc block P leader).Steps t t' ∧ Carrying block P leader w c t' ∧
        (frameOf (t'.pc w) ≠ none ∨ toWork (t'.pc w) < toWork (t.pc w)) := by
    intro t h hout
    obtain ⟨t', hstep, h', hlt⟩ := h.step (not_not.mp hout)
    exact ⟨t', System.Steps.single hstep, h', Or.inr hlt⟩
  obtain ⟨c', hsteps, h', hin⟩ := System.exists_steps_of_measure (fun t => toWork (t.pc w)) hprog c
    ⟨hc, rfl, hcarry, hdest, Or.inl hout⟩
  have hpc : c'.pc w = .work (.loop 0) := by
    rcases h'.frame with hnone | hsome
    · exact absurd hnone hin
    · exact frameOf_eq_some.mp hsome
  refine ⟨c', hsteps, h'.pot, hpc, ?_⟩
  rcases h'.carries with ⟨-, hmine⟩ | ⟨⟨-, hcol⟩, -⟩ | ⟨hstart, -⟩
  · exact hmine
  · rcases hcol with ⟨k, h | h⟩ | h | h <;> rw [hpc] at h <;> cases h
  · rw [hpc] at hstart
    cases hstart

variable (block P leader) in
/-- The loop test of `do_work` as a step of the machine. -/
theorem loop_step {c : SearchConfig W V} {w : W} {n : ℤ} (hpc : c.pc w = .work (.loop n)) :
    (∃ c', Alone block P leader w c c' ∧ pot P c' < pot P c) ∨
    (P.pollCutoff ≤ n ∨ (c.myFrontier w).entries = 0) ∧
      ∃ c', Alone block P leader w c c' ∧ pot P c' = pot P c ∧ c'.pc w = .loopTest ∧
        c'.myFrontier = c.myFrontier ∧ c'.shared = c.shared := by
  have hold : (poolView c).frames w = some (.loop n) := by simp [poolView, hpc, frameOf]
  have hstep : ∀ {m l f r}, doWork .pwsa_pc P w true c.shared (c.loc w) (c.myFrontier w) (.loop n) =
      some (m, l, f, r) → Alone block P leader w c
        (({ c.setMine w l f with shared := m }).goto w (afterBody r)) := by
    intro m l f r hrun
    refine ⟨System.Steps.single ⟨(w, .choose true), ?_⟩, ?_, rfl⟩
    · simp only [next, hpc]
      show (doWork .pwsa_pc P w true c.shared (c.loc w) (c.myFrontier w) (.loop n)).map _ = _
      rw [hrun]
      rfl
    · intro v hv
      simp [Config.goto, Config.setMine, hv]
  by_cases hpop : n < P.pollCutoff ∧ (c.myFrontier w).entries ≠ 0
  · have hpos : 0 < (c.myFrontier w).size :=
      Nat.pos_of_ne_zero fun hzero => hpop.2 ((ValidHeap.entries_eq_zero_iff _).mpr hzero)
    obtain ⟨v, f, hmin⟩ := ValidHeap.exists_deleteMin hpos
    have hrun : doWork .pwsa_pc P w true c.shared (c.loc w) (c.myFrontier w) (.loop n) =
        some (c.shared, c.loc w, f, .inl (.loadExpanded (n + 1) v)) := by
      simp only [doWork, hpop.1, if_true, hmin]
    refine Or.inl ⟨_, hstep hrun, ?_⟩
    obtain ⟨p, hentries, -⟩ := ValidHeap.entries_deleteMin hmin
    have hmem : (⟨p, v⟩ : KV Dist V) ∈ total ValidHeap.entries c :=
      mem_total.mpr (Or.inr (Or.inl ⟨w, by rw [hentries]; exact Multiset.mem_cons_self ..⟩))
    obtain ⟨rest, hrest⟩ := Multiset.exists_cons_of_mem hmem
    have hpot := potential_pop P (k := n + 1) hold hrest v
    unfold pot
    rw [poolView_body _ _ _ _ _ _ rest]
    · exact Nat.lt_of_succ_le hpot.le
    · rw [hentries, hrest, Multiset.cons_add, Multiset.add_cons]
  · have hend : P.pollCutoff ≤ n ∨ (c.myFrontier w).entries = 0 := by
      rcases not_and_or.mp hpop with h | h
      · exact Or.inl (not_lt.mp h)
      · exact Or.inr (not_not.mp h)
    have hrun : doWork .pwsa_pc P w true c.shared (c.loc w) (c.myFrontier w) (.loop n) =
        some (c.shared, c.loc w + n, c.myFrontier w, .inr false) := by
      simp only [doWork]
      rcases hend with h | h
      · rw [if_neg (not_lt.mpr h)]
      · have hnone : (c.myFrontier w).deleteMin = none :=
          (ValidHeap.deleteMin_eq_none_iff _).mpr ((ValidHeap.entries_eq_zero_iff _).mp h)
        rw [hnone]
        split <;> rfl
    refine Or.inr ⟨hend, _, hstep hrun, ?_, ?_, ?_, rfl⟩
    · unfold pot
      rw [poolView_body c w c.shared (c.loc w + n) (c.myFrontier w) _ _ rfl]
      have hset := potential_setFrame P (poolView c) w none
      rw [hold] at hset
      exact hset
    · simp [Config.goto, afterBody]
    · simp [Config.goto, Config.setMine]

/-- **A worker that carries an entry lowers the potential.** -/
theorem carry_progress {c : SearchConfig W V} {w : W} (hpoll : 1 ≤ P.pollCutoff)
    (hc : (pwsaPc block P leader).Reachable c)
    (hdest : c.shared.isExpanded P.destination = false) (hcarry : Carries leader c w)
    (hidle : ∀ b, c.pc w = .work b → ∃ n, b = .loop n) :
    ∃ c', (pwsaPc block P leader).Steps c c' ∧ pot P c' < pot P c := by
  have hpop : ∀ t, (pwsaPc block P leader).Reachable t →
      t.shared.isExpanded P.destination = false → Carries leader t w → frameOf (t.pc w) = none →
      ∃ t', (pwsaPc block P leader).Steps t t' ∧ pot P t' < pot P t := by
    intro t ht hdest hcarry hout
    obtain ⟨t₁, hsteps, hpot, hpc, hmine⟩ := carry_run ht hdest hcarry hout
    rcases loop_step block P leader hpc with ⟨t₂, halone, hlt⟩ | ⟨hend, -⟩
    · exact ⟨t₂, hsteps.trans halone.steps, by omega⟩
    · rcases hend with h | h
      · omega
      · exact absurd h hmine
  cases hframe : frameOf (c.pc w) with
  | none => exact hpop c hc hdest hcarry hframe
  | some b =>
    have hpc := frameOf_eq_some.mp hframe
    obtain ⟨n, rfl⟩ := hidle b hpc
    rcases loop_step block P leader hpc with
      ⟨c', halone, hlt⟩ | ⟨-, c', halone, hpot, hpc', hmine', hshared'⟩
    · exact ⟨c', halone.steps, hlt⟩
    · -- the call has ended: the worker goes round the loop once
      have hmine : (c.myFrontier w).entries ≠ 0 := by
        rcases hcarry with ⟨-, hmine⟩ | ⟨⟨-, hcol⟩, -⟩ | ⟨hstart, -⟩
        · exact hmine
        · rcases hcol with ⟨k, h | h⟩ | h | h <;> rw [hpc] at h <;> cases h
        · rw [hpc] at hstart
          cases hstart
      have hcarry' : Carries leader c' w := Or.inl ⟨by simp [hpc', Pc.idle], by rw [hmine']; exact hmine⟩
      obtain ⟨c'', hsteps, hlt⟩ := hpop c' (hc.steps halone.steps) (by rw [hshared']; exact hdest)
        hcarry' (by simp [hpc', frameOf])
      exact ⟨c'', halone.steps.trans hsteps, by omega⟩

/-- An entry in a mailbox will be collected by its owner. -/
theorem mailbox_progress {c : SearchConfig W V} {j : W} (hpoll : 1 ≤ P.pollCutoff)
    (hc : (pwsaPc block P leader).Reachable c)
    (hdest : c.shared.isExpanded P.destination = false) (hbox : (c.frontiers j).entries ≠ 0) :
    ∃ c', (pwsaPc block P leader).Steps c c' ∧ pot P c' < pot P c := by
  have R := reachable_runInv hc
  rcases mailbox_cases R.machine hbox with ⟨k, hk, hj⟩ | hcol | ⟨-, hflag⟩
  · -- the victim has split and is about to say so
    have hne : j ≠ k := by
      rintro rfl
      rcases hj with hj | hj <;> rw [hk] at hj <;> cases hj
    have hadv : advance (client .pwsa_pc block P) leader k c =
        some ((c.storeAnswer j .transferred).goto k .reopen) := by simp only [advance, hk]
    have hstep := step_advance hadv
    have hpcj : ((c.storeAnswer j .transferred).goto k .reopen).pc j = c.pc j := by
      simp [Config.goto, Config.storeAnswer, hne]
    have hcarry : Carries leader ((c.storeAnswer j .transferred).goto k .reopen) j := by
      refine Or.inr (Or.inl ⟨⟨?_, Or.inl ⟨k, ?_⟩⟩, hbox⟩)
      · simp [Config.goto, Config.storeAnswer]
      · unfold Polls
        rw [hpcj]
        exact hj
    obtain ⟨c', hsteps, hlt⟩ := carry_progress hpoll (hc.step hstep) hdest hcarry (by
      intro b hb
      rw [hpcj] at hb
      rcases hj with hj | hj <;> rw [hb] at hj <;> cases hj)
    rw [pot_advance R.machine hadv] at hlt
    exact ⟨c', System.Steps.head hstep hsteps, hlt⟩
  · refine carry_progress hpoll hc hdest (Or.inr (Or.inl ⟨hcol, hbox⟩)) ?_
    intro b hb
    rcases hcol.2 with ⟨k, h | h⟩ | h | h <;> rw [hb] at h <;> cases h
  · exact absurd (R.done.flagged hflag) (by simp [hdest])

/-- **As long as a reachable destination is not expanded, the potential can be lowered.** -/
theorem expand_progress {c : SearchConfig W V} (hpoll : 1 ≤ P.pollCutoff)
    (hreach : P.graph.Reaches P.source P.destination) (hc : (pwsaPc block P leader).Reachable c)
    (hdest : c.shared.isExpanded P.destination = false) :
    ∃ c', (pwsaPc block P leader).Steps c c' ∧ pot P c' < pot P c := by
  have R := reachable_runInv hc
  by_cases hbusy : ∃ w b, c.pc w = .work b ∧ ∀ n, b ≠ .loop n
  · obtain ⟨w, b, hpc, hloop⟩ := hbusy
    have hguard := R.path.guarded (by decide) w b (frameOf_eq_some.mpr hpc)
    obtain ⟨c', halone, hlt⟩ := work_progress block P leader hpc hguard hloop
    exact ⟨c', halone.steps, hlt⟩
  · have hloops : ∀ w b, c.pc w = .work b → ∃ n, b = .loop n := by
      intro w b hb
      by_contra hno
      exact hbusy ⟨w, b, hb, fun n hn => hno ⟨n, hn⟩⟩
    have htotal : total ValidHeap.entries c ≠ 0 := by
      intro hzero
      have hexp := (expanded_iff_reaches R.path R.track hdest hzero
        (fun w b hb => hloops w b (frameOf_eq_some.mp hb)) P.destination).mpr hreach
      exact absurd hexp (by simp [poolView, hdest])
    obtain ⟨e, he⟩ := Multiset.exists_mem_of_ne_zero htotal
    have hne : ∀ {f : Frontier V}, e ∈ f.entries → f.entries ≠ 0 := by
      intro f hf h0
      rw [h0] at hf
      exact Multiset.notMem_zero e hf
    rcases mem_total.mp he with he | ⟨w, he⟩ | ⟨j, he⟩
    · exact carry_progress hpoll hc hdest (w := leader)
        (Or.inr (Or.inr ⟨R.done.input (hne he), rfl, hne he⟩)) (hloops leader)
    · refine carry_progress hpoll hc hdest (w := w) (Or.inl ⟨?_, hne he⟩) (hloops w)
      intro hidle
      exact hne he (R.machine.idle w hidle)
    · exact mailbox_progress hpoll hc hdest (hne he)

/-! ## Driving a worker to return once the flag is set -/

/-- How far a worker is from returning, when `is_done` is set. -/
def toReturn (c : SearchConfig W V) (w : W) : ℕ :=
  match c.pc w with
  | .start => 23
  | .callSize => 22
  -- a compare-exchange that will fail goes back to the load, which then does not come here again
  | .blockCas => if c.requests w = .waiting then 19 else 21
  | .blockLoad => 20
  | .blockStore _ => 18
  | .blockReject _ => 17
  | .resetAnswer => 16
  | .pickVictim => 15
  | .loadVictim _ => 14
  | .postRequest _ => 13
  | .spinLoad _ => 12
  | .spinDone _ => 11
  | .recheck => 10
  | .acquireTest => 9
  | .swapMailbox => 8
  | .callSizeAgain => 7
  | .respondLoad _ => 6
  | .fork _ => 5
  | .transfer _ | .reject _ => 4
  | .reopen | .unblock => 3
  | .work _ => 2
  | .loopTest | .setDone => 1
  | .returned => 0

omit [DecidableEq V] [Fintype V] [Fintype W] in
theorem toReturn_lt (c : SearchConfig W V) (w : W) : toReturn c w < 40 := by
  unfold toReturn
  split <;> first | omega | (split <;> omega)

omit [Fintype V] [Fintype W] in
variable (block P leader) in
/-- With the flag set, every control step leads towards returning. -/
theorem return_step {c : SearchConfig W V} {w : W} (I : ParallelWhile.Inv ValidHeap.entries c)
    (hdone : c.isDone = true) (hwork : ∀ b, c.pc w ≠ .work b) (hpick : c.pc w ≠ .pickVictim)
    (hret : c.pc w ≠ .returned) :
    ∃ c', advance (client .pwsa_pc block P) leader w c = some c' ∧
      toReturn c' w < toReturn c w := by
  have hK := client_lawful (W := W) .pwsa_pc block P
  cases hpc : c.pc w <;> simp only [advance, hpc]
  case work b => exact absurd hpc (hwork b)
  case pickVictim => exact absurd hpc hpick
  case returned => exact absurd hpc hret
  case fork other =>
    obtain ⟨l, src, dst, hrun, -⟩ := hK.fork (c.loc w) (c.myFrontier w) _ (I.fork_empty hpc)
    rw [hrun]
    exact ⟨_, rfl, by simp [toReturn, Config.goto, hpc]⟩
  case blockLoad =>
    cases hreq : c.requests w <;> exact ⟨_, rfl, by simp [toReturn, Config.goto, hpc, hreq]⟩
  case blockCas =>
    by_cases hreq : c.requests w = .waiting
    · rw [if_pos hreq]
      exact ⟨_, rfl, by simp [toReturn, Config.goto, hpc, hreq]⟩
    · rw [if_neg hreq]
      exact ⟨_, rfl, by simp [toReturn, Config.goto, hpc, hreq]⟩
  case respondLoad sz =>
    cases hreq : c.requests w with
    | blocked | waiting => exact ⟨_, rfl, by simp [toReturn, Config.goto, hpc]⟩
    | «from» other =>
      refine ⟨_, rfl, ?_⟩
      split <;> simp [toReturn, Config.goto, hpc]
  case start =>
    split <;> exact ⟨_, rfl, by simp [toReturn, Config.goto, hpc]⟩
  case postRequest other =>
    split <;> exact ⟨_, rfl, by simp [toReturn, Config.goto, hpc]⟩
  case loopTest | acquireTest | spinDone =>
    exact ⟨_, rfl, by simp [toReturn, Config.goto, hpc, hdone]⟩
  case callSize | loadVictim | spinLoad | recheck =>
    refine ⟨_, rfl, ?_⟩
    split <;> simp [toReturn, Config.goto, hpc]
  all_goals exact ⟨_, rfl, by simp [toReturn, Config.goto, hpc]⟩

omit [Fintype V] [Fintype W] in
/-- A control step of `w`, made alone; the flag stays set. -/
theorem alone_advance {w : W} {c c' : SearchConfig W V} (hdone : c.isDone = true)
    (h : advance (client .pwsa_pc block P) leader w c = some c') : Alone block P leader w c c' where
  steps := System.Steps.single (step_advance h)
  others v hv := ((advance_frame h).2 v hv).1
  flag := by rw [hdone, (advance_done h).1.mpr (Or.inl hdone)]

/-- One stretch of a worker on its way to returning: the potential drops, or stays and the worker
gets closer. -/
theorem return_stretch {c : SearchConfig W V} {w : W} (hc : (pwsaPc block P leader).Reachable c)
    (hdone : c.isDone = true) (hret : c.pc w ≠ .returned) :
    ∃ c', Alone block P leader w c c' ∧
      (pot P c' < pot P c ∨ pot P c' = pot P c ∧ toReturn c' w < toReturn c w) := by
  have R := reachable_runInv hc
  by_cases hpick : c.pc w = .pickVictim
  · -- whoever has set the flag has returned and can be picked
    obtain ⟨k, hk⟩ := R.done.left hdone
    have hne : k ≠ w := by
      rintro rfl
      rw [hk] at hpick
      cases hpick
    refine ⟨c.goto w (.loadVictim k), ⟨System.Steps.single ⟨(w, .pick k), ?_⟩, ?_, rfl⟩, Or.inr ⟨?_, ?_⟩⟩
    · simp only [next, hpick, if_neg hne]
    · intro v hv
      simp [Config.goto, hv]
    · unfold pot
      rw [poolView_pick hpick]
    · simp [toReturn, Config.goto, hpick]
  · cases hframe : frameOf (c.pc w) with
    | none =>
      have hwork : ∀ b, c.pc w ≠ .work b := by
        intro b hb
        simp [hb, frameOf] at hframe
      obtain ⟨c', hadv, hlt⟩ :=
        return_step block P leader R.machine hdone hwork hpick hret
      exact ⟨c', alone_advance hdone hadv, Or.inr ⟨pot_advance R.machine hadv, hlt⟩⟩
    | some b =>
      have hpc := frameOf_eq_some.mp hframe
      by_cases hloop : ∃ n, b = .loop n
      · obtain ⟨n, rfl⟩ := hloop
        rcases loop_step block P leader hpc with
          ⟨c', halone, hlt⟩ | ⟨-, c', halone, hpot, hpc', -⟩
        · exact ⟨c', halone, Or.inl hlt⟩
        · exact ⟨c', halone, Or.inr ⟨hpot, by simp [toReturn, hpc, hpc']⟩⟩
      · have hguard := R.path.guarded (by decide) w b hframe
        obtain ⟨c', halone, hlt⟩ := work_progress block P leader hpc hguard
          fun n hn => hloop ⟨n, hn⟩
        exact ⟨c', halone, Or.inl hlt⟩

/-- **Once the flag is set every worker can be driven to return.** -/
theorem return_progress {c : SearchConfig W V} (w : W) (hc : (pwsaPc block P leader).Reachable c)
    (hdone : c.isDone = true) : ∃ c', Alone block P leader w c c' ∧ c'.pc w = .returned := by
  have hprog : ∀ t, Alone block P leader w c t → ¬ t.pc w = .returned →
      ∃ t', (pwsaPc block P leader).Steps t t' ∧ Alone block P leader w c t' ∧
        (t'.pc w = .returned ∨ 40 * pot P t' + toReturn t' w < 40 * pot P t + toReturn t w) := by
    intro t halone hret
    obtain ⟨t', halone', hlt⟩ :=
      return_stretch (hc.steps halone.steps) (halone.flag.trans hdone) hret
    refine ⟨t', halone'.steps, halone.trans halone', Or.inr ?_⟩
    have hbound := toReturn_lt t' w
    rcases hlt with hlt | ⟨heq, hlt⟩
    · omega
    · omega
  obtain ⟨c', -, halone, hret⟩ := System.exists_steps_of_measure
    (fun t => 40 * pot P t + toReturn t w) hprog c ⟨System.Steps.refl c, fun _ _ => rfl, rfl⟩
  exact ⟨c', halone, hret⟩

/-! ## The three stages -/

/-- The destination gets expanded. -/
theorem exists_expanded {c : SearchConfig W V} (hpoll : 1 ≤ P.pollCutoff)
    (hreach : P.graph.Reaches P.source P.destination) (hc : (pwsaPc block P leader).Reachable c) :
    ∃ c', (pwsaPc block P leader).Steps c c' ∧ c'.shared.isExpanded P.destination = true := by
  have hprog : ∀ t, (pwsaPc block P leader).Reachable t →
      ¬ t.shared.isExpanded P.destination = true →
      ∃ t', (pwsaPc block P leader).Steps t t' ∧ (pwsaPc block P leader).Reachable t' ∧
        (t'.shared.isExpanded P.destination = true ∨ pot P t' < pot P t) := by
    intro t ht hdest
    obtain ⟨t', hsteps, hlt⟩ := expand_progress hpoll hreach ht (by simpa using hdest)
    exact ⟨t', hsteps, ht.steps hsteps, Or.inr hlt⟩
  obtain ⟨c', hsteps, -, hdest⟩ := System.exists_steps_of_measure (pot P) hprog c hc
  exact ⟨c', hsteps, hdest⟩

omit [Fintype V] in
/-- The flag gets set. -/
theorem exists_done {c : SearchConfig W V} (hc : (pwsaPc block P leader).Reachable c)
    (hdest : c.shared.isExpanded P.destination = true) :
    ∃ c', (pwsaPc block P leader).Steps c c' ∧ c'.isDone = true := by
  have R := reachable_runInv hc
  rcases R.done.expanded hdest with hflag | ⟨w, hpc⟩
  · exact ⟨c, System.Steps.refl c, hflag⟩
  · have hadv : advance (client .pwsa_pc block P) leader w c =
        some ({ c with isDone := true }.goto w .returned) := by simp only [advance, hpc]
    exact ⟨_, System.Steps.single (step_advance hadv), rfl⟩

/-- Everybody returns, one after the other. -/
theorem exists_returned {c : SearchConfig W V} (hc : (pwsaPc block P leader).Reachable c)
    (hdone : c.isDone = true) (ws : Finset W) :
    ∃ c', (pwsaPc block P leader).Steps c c' ∧ c'.isDone = true ∧ ∀ w ∈ ws, c'.pc w = .returned := by
  induction ws using Finset.induction_on with
  | empty => exact ⟨c, System.Steps.refl c, hdone, nofun⟩
  | @insert a ws ha ih =>
    obtain ⟨c₁, hsteps, hdone₁, hret⟩ := ih
    obtain ⟨c₂, halone, hreta⟩ := return_progress a (hc.steps hsteps) hdone₁
    refine ⟨c₂, hsteps.trans halone.steps, halone.flag.trans hdone₁, ?_⟩
    intro w hw
    rcases Finset.mem_insert.mp hw with rfl | hmem
    · exact hreta
    · -- the others do not move while `a` is driven to return
      have hne : w ≠ a := by
        rintro rfl
        exact ha hmem
      rw [halone.others w hne]
      exact hret w hmem

/-! ## Deadlock freedom -/

/-- `j` polls for an answer that `k` has not given yet. -/
def Awaits (c : SearchConfig W V) (j k : W) : Prop := Polls c j k ∧ c.answers j = .waiting

omit [DecidableEq V] [Fintype V] [DecidableEq W] [Fintype W] in
/-- Whoever is awaited does not await anybody. -/
theorem awaits_irreflexive {c : SearchConfig W V} (I : ParallelWhile.Inv ValidHeap.entries c)
    {j k l : W} (hjk : Awaits c j k) : ¬ Awaits c k l := by
  intro hkl
  exact I.protocol.polled_not_polling ((Pc.role_waiting _ _).mpr hjk.1) hjk.2 l
    ((Pc.role_waiting _ _).mpr hkl.1)

/-- **Deadlock freedom of wPWSA\*.**  From every reachable configuration some finite continuation
ends with every worker returned and the destination expanded.  No workers wait for each other in a
cycle, and the flag is only ever set when the destination is expanded. -/
theorem deadlock_free (block : ℕ → KV Dist V) (P : Problem V) (leader : W)
    (hreach : P.graph.Reaches P.source P.destination) (hpoll : 1 ≤ P.pollCutoff)
    (c : SearchConfig W V) (hc : (pwsaPc block P leader).Reachable c) :
    (∃ c', (pwsaPc block P leader).Steps c c' ∧ (∀ w, c'.pc w = .returned) ∧
      c'.shared.isExpanded P.destination = true) ∧
    (∀ j, ¬ Relation.TransGen (Awaits c) j j) ∧
    (c.isDone = true → c.shared.isExpanded P.destination = true) := by
  have R := reachable_runInv hc
  refine ⟨?_, ?_, R.done.flagged⟩
  · obtain ⟨c₁, h₁, hdest⟩ := exists_expanded hpoll hreach hc
    obtain ⟨c₂, h₂, hdone⟩ := exists_done (hc.steps h₁) hdest
    have hc₂ := (hc.steps h₁).steps h₂
    obtain ⟨c₃, h₃, hdone₃, hret⟩ := exists_returned hc₂ hdone Finset.univ
    refine ⟨c₃, (h₁.trans h₂).trans h₃, fun w => hret w (Finset.mem_univ w), ?_⟩
    exact (reachable_doneInv (hc₂.steps h₃)).flagged hdone₃
  · intro j hcycle
    obtain ⟨k, hjk, hrest⟩ := Relation.TransGen.head'_iff.mp hcycle
    rcases Relation.ReflTransGen.cases_head hrest with rfl | ⟨l, hkl, -⟩
    · exact awaits_irreflexive R.machine hjk hjk
    · exact awaits_irreflexive R.machine hjk hkl

/-- Three workers on two cells can always finish. -/
theorem deadlock_free_corridor : ∃ c',
    (pwsaPc (corridorBlock 1) (corridorProblem 1) (0 : Fin 3)).Steps (corridorStart .pwsa_pc 2 1) c' ∧
    (∀ w, c'.pc w = .returned) ∧ c'.shared.isExpanded (corridorProblem 1).destination = true := by
  have harc : (corridorProblem 1).graph.Arc 0 1 10000 := by decide
  exact (deadlock_free (corridorBlock 1) (corridorProblem 1) 0 ⟨10000, WGraph.Walk.single harc⟩
    (by decide) (corridorStart .pwsa_pc 2 1) (System.Reachable.of_init ⟨_, rfl⟩)).1

end PwsaStar.Pwsa
