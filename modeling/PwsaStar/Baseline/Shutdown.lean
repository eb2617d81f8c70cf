/-
# PwsaStar.Baseline.Shutdown — the end of `solveMaze` in `old_pase_main` and `old_pastar_main`.
-/
import PwsaStar.Baseline.Basic

namespace PwsaStar.Baseline

open PwsaStar.Lib

/-- **Shutdown of the two programs**: no run in which `pthread_cond_wait` returns when all workers have
left the loop deadlocks, and any other return of it can still lead to a deadlock. -/
theorem shutdown (n : ℕ) (Z : Maze) :
    ((∀ c, (timelySystem n (pase n Z) (Memory.start Z)).Reachable c → ¬ Deadlocked (pase n Z) c) ∧
      ∀ c c' signalled, (system n (pase n Z) (Memory.start Z)).Reachable c →
        c.main = .awake signalled → next (pase n Z) .main c = some c' →
        ((∃ d, (system n (pase n Z) (Memory.start Z)).Steps c' d ∧ Deadlocked (pase n Z) d) ↔
          ¬ Timely c .main)) ∧
    ((∀ c, (timelySystem n (pastar n Z) (Memory.start Z)).Reachable c →
        ¬ Deadlocked (pastar n Z) c) ∧
      ∀ c c' signalled, (system n (pastar n Z) (Memory.start Z)).Reachable c →
        c.main = .awake signalled → next (pastar n Z) .main c = some c' →
        ((∃ d, (system n (pastar n Z) (Memory.start Z)).Steps c' d ∧ Deadlocked (pastar n Z) d) ↔
          ¬ Timely c .main)) := by
  have hpase := pase_lawful n Z
  have hpastar := pastar_lawful n Z
  refine ⟨⟨fun c hc => ?_, fun c c' signalled hc hmain hstep => ?_⟩,
    fun c hc => ?_, fun c c' signalled hc hmain hstep => ?_⟩
  · exact timely_not_deadlocked hpase hc
  · exact deadlock_iff hpase hc hmain hstep
  · exact timely_not_deadlocked hpastar hc
  · exact deadlock_iff hpastar hc hmain hstep

/-- A map of one free cell, which is the start and the goal. -/
def oneCell : Maze where
  sizeX := 1
  sizeY := 1
  obs _ := false
  start := (0, 0)
  goal := (0, 0)
  fval g _ := g
  exceeds d _ _ := d > 0

/-- The main thread comes to `pthread_cond_wait`, the first worker does `k` statements to the end, and
the main thread does `j` more. -/
def firstOnly {n : ℕ} (w : Fin n) (k j : ℕ) : List (Act n) :=
  List.replicate (n + 3) .main ++ List.replicate k (.worker w) ++ List.replicate j .main

theorem exists_run (n : ℕ) {B : Type} (K : Body Memory B) (Z : Maze) (schedule : List (Act n))
    (P : Config n Memory B → Prop) [DecidablePred P]
    (h : (runSchedule (next K) schedule (start n (Memory.start Z))).any (fun c => decide (P c)) = true) :
    ∃ c, (system n K (Memory.start Z)).Reachable c ∧ P c :=
  exists_reachable (system n K (Memory.start Z)) (next K) (fun a _ _ ha => ⟨a, ha⟩) rfl schedule P h

theorem exists_timely_run (n : ℕ) {B : Type} (K : Body Memory B) (Z : Maze) (schedule : List (Act n))
    (P : Config n Memory B → Prop) [DecidablePred P]
    (h : (runSchedule (timelyNext K) schedule (start n (Memory.start Z))).any
      (fun c => decide (P c)) = true) :
    ∃ c, (timelySystem n K (Memory.start Z)).Reachable c ∧ P c := by
  refine exists_reachable (timelySystem n K (Memory.start Z)) (timelyNext K) ?_ rfl schedule P h
  intro a c c' ha
  simp only [timelyNext] at ha
  split at ha
  · exact ⟨a, ‹_›, ha⟩
  · cases ha

/-- With one worker both programs come to the end of `solveMaze` in a timely run.  With two, the main
thread of `old_pase_main` can return from `pthread_cond_wait` when the second has not started. -/
theorem shutdown_oneCell :
    (∃ c, (timelySystem 1 (pase 1 oneCell) (Memory.start oneCell)).Reachable c ∧ c.main = .done ∧
      ¬ Deadlocked (pase 1 oneCell) c) ∧
    (∃ c, (timelySystem 1 (pastar 1 oneCell) (Memory.start oneCell)).Reachable c ∧ c.main = .done ∧
      ¬ Deadlocked (pastar 1 oneCell) c) ∧
    ∃ c c', (system 2 (pase 2 oneCell) (Memory.start oneCell)).Reachable c ∧
      next (pase 2 oneCell) .main c = some c' ∧
      ∃ d, (system 2 (pase 2 oneCell) (Memory.start oneCell)).Steps c' d ∧
        Deadlocked (pase 2 oneCell) d := by
  obtain ⟨c, hc, hdone⟩ := exists_timely_run 1 (pase 1 oneCell) oneCell (firstOnly 0 12 4)
    (fun c => c.main = .done) (by decide +kernel)
  obtain ⟨d, hd, hdone'⟩ := exists_timely_run 1 (pastar 1 oneCell) oneCell (firstOnly 0 10 4)
    (fun c => c.main = .done) (by decide +kernel)
  obtain ⟨e, he, hmutex, hmain, hlate⟩ := exists_run 2 (pase 2 oneCell) oneCell (firstOnly 0 14 0)
    (fun c => c.mutex = none ∧ c.main = .awake true ∧ c.pc 1 = .acquire) (by decide +kernel)
  have hstep : next (pase 2 oneCell) .main e = some { e with mutex := some .main, main := .join 0 } := by
    simp only [next, mainStep, hmutex, hmain, if_true]
  have huntimely : ¬ Timely e .main := by
    intro h
    have hleft := h true hmain 1
    rw [hlate] at hleft
    exact hleft
  refine ⟨⟨c, hc, hdone, ?_⟩, ⟨d, hd, hdone', ?_⟩, e, _, he, hstep, ?_⟩
  · exact (shutdown 1 oneCell).1.1 c hc
  · exact (shutdown 1 oneCell).2.1 d hd
  · exact ((shutdown 2 oneCell).1.2 e _ true he hmain hstep).mpr huntimely

/-- **Two workers, and the second one is late**: the first one finds the goal and counts `ids` down to
zero before the second one has locked the mutex. -/
theorem shutdown_late :
    oneCell.goal = oneCell.start ∧
    (∃ c, (system 2 (pase 2 oneCell) (Memory.start oneCell)).Reachable c ∧
      Deadlocked (pase 2 oneCell) c) ∧
    ∃ c, (system 2 (pastar 2 oneCell) (Memory.start oneCell)).Reachable c ∧
      Deadlocked (pastar 2 oneCell) c := by
  obtain ⟨c, hc, hmutex, hmain, hlate⟩ := exists_run 2 (pase 2 oneCell) oneCell (firstOnly 0 14 2)
    (fun c => c.mutex = some .main ∧ c.main = .join 1 ∧ c.pc 1 = .acquire) (by decide +kernel)
  obtain ⟨d, hd, hmutex', hmain', hlate'⟩ := exists_run 2 (pastar 2 oneCell) oneCell (firstOnly 0 11 2)
    (fun c => c.mutex = some .main ∧ c.main = .join 1 ∧ c.pc 1 = .acquire) (by decide +kernel)
  exact ⟨rfl, ⟨c, hc, hmutex, 1, hmain, Or.inl hlate⟩, d, hd, hmutex', 1, hmain', Or.inl hlate'⟩

end PwsaStar.Baseline
