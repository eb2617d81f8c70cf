/-
# PwsaStar.Single — one worker of the parallel searches reproduces `astar`.

The two reductions are in `Wpanre.Single` and `Pwsa.Single`: alone, a worker executes a sequential
loop step by step.  For `wpanre` this is the loop of `astar`, whatever the heuristic is.  For `pwsa_pc`
it is the loop without entries for expanded vertices, which is the loop of `astar` when the heuristic
is consistent, and which keeps the invariant of `astar` when it is consistent up to a factor.
-/
import PwsaStar.Wpanre.Single
import PwsaStar.Pwsa.Single

namespace PwsaStar

open PwsaStar.Lib PwsaStar.Heap PwsaStar.Sequential

variable {V W : Type*} [DecidableEq V] [Fintype V]

end PwsaStar
