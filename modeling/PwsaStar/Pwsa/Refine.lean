/-
# PwsaStar.Pwsa.Refine — every run under `parallel_while_pwsa` is a run of the pool machine.

The pool of a configuration is everything there is to do: the initial input, all frontiers and all
mailboxes.  Control steps of the worker loop conserve it and do not touch the shared memory, so they
are silent, except that calling the body enters `do_work`.  A step of `do_work` is a pop, an access,
or the end of the call.  With this the invariants of the pool machine hold of the searches.
-/
import PwsaStar.Pwsa.Pool

namespace PwsaStar.Pwsa

open PwsaStar.Lib PwsaStar.Heap PwsaStar.ParallelWhile

variable {W V : Type*} [DecidableEq V] [DecidableEq W] [Fintype W]

/-- The frame of a worker that is inside the body. -/
def frameOf {B : Type*} : Pc W B → Option B
  | .work b => some b
  | _ => none

omit [DecidableEq W] [Fintype W] in
theorem frameOf_eq_some {B : Type*} {p : Pc W B} {b : B} : frameOf p = some b ↔ p = .work b := by
  cases p <;> simp [frameOf]

/-- Forget who holds what. -/
def poolView (c : SearchConfig W V) : PoolState W V where
  mem := c.shared
  pool := total ValidHeap.entries c
  frames w := frameOf (c.pc w)

/-! ## Steps outside the body -/

omit [Fintype W] in
/-- Control steps start outside the body and enter it at its beginning. -/
theorem advance_work {F S L B X : Type*} {K : Client W F S L B X} {leader w : W}
    {c c' : Config W F S L B} (h : advance K leader w c = some c') :
    frameOf (c.pc w) = none ∧ (frameOf (c'.pc w) = none ∨ frameOf (c'.pc w) = some K.enter) := by
  cases hpc : c.pc w <;> simp only [advance, hpc] at h
  case fork other =>
    obtain ⟨⟨l, src, dst⟩, -, rfl⟩ := Option.map_eq_some_iff.mp h
    simp [Config.goto, frameOf]
  all_goals
    repeat' split at h
    all_goals cases h
    all_goals simp [Config.goto, frameOf]

omit [Fintype W] in
theorem frames_goto {F S L B : Type*} (c c' : Config W F S L B) (w : W)
    (hframe : ∀ v, v ≠ w → c'.pc v = c.pc v) :
    (fun v => frameOf (c'.pc v)) =
      Function.update (fun v => frameOf (c.pc v)) w (frameOf (c'.pc w)) := by
  funext v
  rcases eq_or_ne v w with rfl | hne
  · simp
  · simp [hne, hframe v hne]

/-! ## Steps of `do_work` -/

/-- What a worker does after an access. -/
def Effect.result : Effect V → Frame V ⊕ Bool
  | .goto b | .insert _ _ b => .inl b
  | .found => .inr true

omit [DecidableEq V] [DecidableEq W] [Fintype W] in
theorem frameOf_afterBody (effect : Effect V) :
    frameOf (afterBody effect.result : Pc W (Frame V)) = effect.frame := by
  cases effect <;> rfl

section DoWork

variable {variant : Variant} {P : Problem V} {w : W} {x : Bool} {m m' : Shared W V}
  {balance balance' : ℤ} {frontier frontier' : Frontier V} {b : Frame V} {r : Frame V ⊕ Bool}

omit [DecidableEq W] [Fintype W]

/-- A step of `do_work` that is no loop test is an access. -/
theorem doWork_access (hb : ∀ steps, b ≠ .loop steps)
    (h : doWork variant P w x m balance frontier b = some (m', balance', frontier', r)) :
    ∃ effect, access variant P w x m b = some (m', effect) ∧
      effect.outcome m' balance frontier = (m', balance', frontier', r) := by
  have hmap : (access variant P w x m b).map (fun r => r.2.outcome r.1 balance frontier) =
      some (m', balance', frontier', r) := by
    cases b with
    | loop steps => exact absurd rfl (hb steps)
    | _ => exact h
  obtain ⟨⟨m₁, effect⟩, hrun, heq⟩ := Option.map_eq_some_iff.mp hmap
  have hm : m₁ = m' := by
    cases effect <;> cases heq <;> rfl
  subst hm
  exact ⟨effect, hrun, heq⟩

/-- Conversely, an access is a step of `do_work`. -/
theorem doWork_of_access (balance : ℤ) (frontier : Frontier V) {effect : Effect V}
    (h : access variant P w x m b = some (m', effect)) :
    ∃ l f, doWork variant P w x m balance frontier b = some (m', l, f, effect.result) := by
  cases b with
  | loop steps => cases h
  | _ => cases effect <;> exact ⟨_, _, by simp only [doWork, h, Option.map_some]; rfl⟩

/-- A step of `do_work` pops, returns, or accesses the shared memory. -/
theorem doWork_cases
    (h : doWork variant P w x m balance frontier b = some (m', balance', frontier', r)) :
    (∃ n v, b = .loop n ∧ m' = m ∧ frontier.deleteMin = some (v, frontier') ∧
      r = .inl (.loadExpanded (n + 1) v)) ∨
    (∃ n, b = .loop n ∧ m' = m ∧ frontier' = frontier ∧ r = .inr false) ∨
    ∃ effect, access variant P w x m b = some (m', effect) ∧
      frontier'.entries = effect.inserted + frontier.entries ∧ r = effect.result := by
  by_cases hb : ∀ steps, b ≠ .loop steps
  · obtain ⟨effect, hrun, heq⟩ := doWork_access hb h
    refine Or.inr (Or.inr ⟨effect, hrun, ?_⟩)
    cases effect <;> cases heq <;> exact ⟨by simp [Effect.inserted], rfl⟩
  · push Not at hb
    obtain ⟨n, rfl⟩ := hb
    simp only [doWork] at h
    split at h
    · split at h <;> cases h
      · exact Or.inl ⟨n, _, rfl, rfl, ‹_›, rfl⟩
      · exact Or.inr (Or.inl ⟨n, rfl, rfl, rfl, rfl⟩)
    · cases h
      exact Or.inr (Or.inl ⟨n, rfl, rfl, rfl, rfl⟩)

end DoWork

/-! ## The refinement -/

section Step

variable {variant : Variant} {block : ℕ → KV Dist V} {P : Problem V} {leader : W}
  {allowed : Shared W V → Bool → Frame V → Prop}

/-- The accesses an action makes in a configuration are allowed. -/
def ActAllowed (allowed : Shared W V → Bool → Frame V → Prop) (c : SearchConfig W V) (w : W)
    (a : Act W Bool) : Prop :=
  ∀ x b, a = .choose x → c.pc w = .work b → allowed c.shared x b

/-- A control step changes at most the frame of its worker. -/
theorem poolView_advance {w : W} {c c' : SearchConfig W V}
    (I : ParallelWhile.Inv ValidHeap.entries c)
    (h : advance (client variant block P) leader w c = some c') :
    poolView c' = (poolView c).setFrame w (frameOf (c'.pc w)) := by
  have hK := client_lawful (W := W) variant block P
  obtain ⟨hshared, hframe⟩ := advance_frame h
  have htotal := advance_total hK (fun j hj => I.fork_empty hj) h
  have hframes := frames_goto c c' w fun v hv => (hframe v hv).1
  simp only [poolView, hshared, htotal, hframes, PoolState.setFrame]

theorem pool_advance {w : W} {c c' : SearchConfig W V}
    (I : ParallelWhile.Inv ValidHeap.entries c)
    (h : advance (client variant block P) leader w c = some c') :
    (poolSystem variant P allowed).Steps (poolView c) (poolView c') := by
  obtain ⟨hout, hin⟩ := advance_work h
  rw [poolView_advance I h]
  rcases hin with hin | hin <;> rw [hin]
  · have hself : (poolView c).setFrame w none = poolView c := by
      have hnone : (poolView c).frames w = none := hout
      simp [PoolState.setFrame, ← hnone]
    rw [hself]
    exact System.Steps.refl _
  · exact System.Steps.single (PoolStep.enter w hout)

omit [DecidableEq V] in
/-- The pool when a step of the body has been made. -/
theorem poolView_body (c : SearchConfig W V) (w : W) (m : Shared W V) (l : ℤ) (f : Frontier V)
    (p : Pc W (Frame V)) (pool : Multiset (KV Dist V))
    (hpool : pool + (c.myFrontier w).entries = total ValidHeap.entries c + f.entries) :
    poolView (({ c.setMine w l f with shared := m }).goto w p) =
      ({ poolView c with mem := m, pool := pool }).setFrame w (frameOf p) := by
  have hframes := frames_goto c (({ c.setMine w l f with shared := m }).goto w p) w
    fun v hv => by simp [Config.goto, Config.setMine, hv]
  have hpcw : (({ c.setMine w l f with shared := m }).goto w p).pc w = p := by
    simp [Config.goto]
  rw [hpcw] at hframes
  have htotal : total ValidHeap.entries (({ c.setMine w l f with shared := m }).goto w p) = pool :=
    add_right_cancel ((total_body c w l f m p).trans hpool.symm)
  simp only [poolView, PoolState.setFrame, hframes, htotal]
  rfl

theorem pool_body {w : W} {x : Bool} {c : SearchConfig W V} {b : Frame V} {m : Shared W V} {l : ℤ}
    {f : Frontier V} {r : Frame V ⊕ Bool} (hpc : c.pc w = .work b)
    (hallowed : allowed c.shared x b)
    (h : doWork variant P w x c.shared (c.loc w) (c.myFrontier w) b = some (m, l, f, r)) :
    (poolSystem variant P allowed).Steps (poolView c)
      (poolView (({ c.setMine w l f with shared := m }).goto w (afterBody r))) := by
  have hw : (poolView c).frames w = some b := by simp [poolView, hpc, frameOf]
  rcases doWork_cases h with ⟨n, v, rfl, rfl, hpop, rfl⟩ | ⟨n, rfl, rfl, rfl, rfl⟩ |
    ⟨effect, haccess, hentries, rfl⟩
  · obtain ⟨p, hentries, -⟩ := ValidHeap.entries_deleteMin hpop
    -- the popped entry is one of the pool
    have hmem : (⟨p, v⟩ : KV Dist V) ∈ total ValidHeap.entries c :=
      mem_total.mpr (Or.inr (Or.inl ⟨w, by rw [hentries]; exact Multiset.mem_cons_self ..⟩))
    obtain ⟨rest, hrest⟩ := Multiset.exists_cons_of_mem hmem
    rw [poolView_body _ _ _ _ _ _ rest]
    · exact System.Steps.single (PoolStep.pop w n ⟨p, v⟩ rest hw hrest)
    · rw [hentries, hrest, Multiset.cons_add, Multiset.add_cons]
  · rw [poolView_body c w c.shared l (c.myFrontier w) _ _ rfl]
    exact System.Steps.single (PoolStep.leave w n hw)
  · rw [poolView_body _ _ _ _ _ _ (effect.inserted + total ValidHeap.entries c), frameOf_afterBody]
    · exact System.Steps.single (PoolStep.access w x b m effect hw hallowed haccess)
    · rw [hentries]
      abel

omit [DecidableEq V] in
/-- Picking a victim is silent. -/
theorem poolView_pick {w j : W} {c : SearchConfig W V} (hpc : c.pc w = .pickVictim) :
    poolView (c.goto w (.loadVictim j)) = poolView c := by
  have hframes := frames_goto c (c.goto w (.loadVictim j)) w fun v hv => by simp [Config.goto, hv]
  have hself : frameOf ((c.goto w (.loadVictim j)).pc w) = frameOf (c.pc w) := by
    simp [Config.goto, hpc, frameOf]
  rw [hself, Function.update_eq_self] at hframes
  simp only [poolView, hframes]
  rfl

/-- Every step of a search is matched by the pool machine. -/
theorem next_pool {w : W} {a : Act W Bool} {c c' : SearchConfig W V}
    (I : ParallelWhile.Inv ValidHeap.entries c) (hallowed : ActAllowed allowed c w a)
    (h : next (client variant block P) leader (w, a) c = some c') :
    (poolSystem variant P allowed).Steps (poolView c) (poolView c') := by
  rcases next_cases h with h | ⟨j, -, hpc, rfl⟩ | ⟨x, b, m, l, f, r, ha, hpc, hbody, rfl⟩
  · exact pool_advance I h
  · rw [poolView_pick hpc]
    exact System.Steps.refl _
  · exact pool_body hpc (hallowed x b ha hpc) hbody

end Step

/-- The runs of a search in which every access is allowed. -/
def searchWhere (variant : Variant) (block : ℕ → KV Dist V) (P : Problem V) (leader : W)
    (allowed : Shared W V → Bool → Frame V → Prop) : System (SearchConfig W V) where
  init := (search variant block P leader).init
  step c c' := ∃ w a, ActAllowed allowed c w a ∧
    next (client variant block P) leader (w, a) c = some c'

/-- `next`, if the access it makes is allowed. -/
def nextWhere (variant : Variant) (block : ℕ → KV Dist V) (P : Problem V) (leader : W)
    (allowed : Shared W V → Bool → Frame V → Prop) [∀ m x b, Decidable (allowed m x b)] :
    W × Act W Bool → SearchConfig W V → Option (SearchConfig W V)
  | (w, a), c =>
    match a, c.pc w with
    | .choose x, .work b =>
      if allowed c.shared x b then next (client variant block P) leader (w, a) c else none
    | _, _ => next (client variant block P) leader (w, a) c

omit [Fintype W] in
theorem step_of_nextWhere {variant : Variant} {block : ℕ → KV Dist V} {P : Problem V} {leader : W}
    {allowed : Shared W V → Bool → Frame V → Prop} [∀ m x b, Decidable (allowed m x b)] {w : W}
    {a : Act W Bool} {c c' : SearchConfig W V}
    (h : nextWhere variant block P leader allowed (w, a) c = some c') :
    (searchWhere variant block P leader allowed).step c c' := by
  simp only [nextWhere] at h
  split at h
  · split at h
    · refine ⟨w, _, ?_, h⟩
      rintro x' b' ⟨⟩ hpc
      simp_all
    · cases h
  · rename_i hno
    exact ⟨w, _, fun x b ha hpc => absurd hpc (hno x b ha), h⟩

/-- **Every run of a search is a run of the pool machine.** -/
theorem searchWhere_refines (variant : Variant) (block : ℕ → KV Dist V) (P : Problem V) (leader : W)
    (allowed : Shared W V → Bool → Frame V → Prop) :
    System.Refinement (searchWhere variant block P leader allowed) (poolSystem variant P allowed)
      poolView := by
  have hK := client_lawful (W := W) variant block P
  refine ⟨?_, ?_⟩
  · rintro _ ⟨answers, rfl⟩
    show poolView _ = poolStart P
    simp [poolView, poolStart, total, start, client, heapClient, initF, frameOf]
  · rintro c c' hc ⟨w, a, hallowed, h⟩
    refine next_pool ?_ hallowed h
    apply hc.invariant (I := ParallelWhile.Inv ValidHeap.entries)
    · rintro _ ⟨answers, rfl⟩
      exact inv_init hK _ _ _ answers
    · rintro c c' - I ⟨w, a, -, h⟩
      exact inv_next hK I h

theorem search_refines (variant : Variant) (block : ℕ → KV Dist V) (P : Problem V) (leader : W) :
    System.Refinement (search variant block P leader) (poolSystem variant P unrestricted)
      poolView := by
  have hK := client_lawful (W := W) variant block P
  refine ⟨(searchWhere_refines variant block P leader unrestricted).init, ?_⟩
  rintro c c' hc ⟨⟨w, a⟩, h⟩
  exact next_pool (reachable_inv hK hc) (fun _ _ _ _ => trivial) h

end PwsaStar.Pwsa
