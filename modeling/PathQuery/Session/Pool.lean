import PathQuery.Session.Basic
import PathQuery.Session.Slot

/-! Shared sessions. A pool keeps sessions by handle; whoever holds a handle sees what the
other holders stored. It is the world in which the providers of a slot work: one makes a
session anew for every caller, another hands out a session that is there. -/

namespace PathQuery

structure Pool where
  sessions : Array Session
  made : Nat

namespace Pool

def empty : Pool := ⟨#[], 0⟩

/-- Takes a session in, under a new handle. -/
def add (pool : Pool) (s : Session) : Nat × Pool :=
  (pool.sessions.size, { pool with sessions := pool.sessions.push s })

def session? (pool : Pool) (handle : Nat) : Option Session := pool.sessions[handle]?

/-- Puts a session in the place of the one under a handle. -/
def replace (pool : Pool) (handle : Nat) (s : Session) : Pool :=
  { pool with sessions := pool.sessions.setIfInBounds handle s }

/-- Starts a session like the given one for every caller, and counts the callers. -/
def making (s : Session) : Provider Pool Nat :=
  .factory fun pool => { pool with made := pool.made + 1 }.add s

/-- Hands the session of one handle to every caller. -/
def sharing (handle : Nat) : Provider Pool Nat := .factory fun pool => (handle, pool)

end Pool

end PathQuery
