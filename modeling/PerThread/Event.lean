/-!
# Events

What the library reports about its own work, beside the results of operations.
-/

namespace PerThread

inductive Event where
  /-- A table doubled: its capacity before and after, and the entries it holds. -/
  | resized (oldCapacity newCapacity live : Nat)
  /-- A full table found enough stale entries to drop, and kept its capacity. -/
  | roomReclaimed (capacity live : Nat)
  /-- A child's table was made from its parent's, with this many entries. -/
  | forked (capacity inherited : Nat)
  /-- A thread is about to make its first table of a kind. -/
  | allocating
  /-- A value came too late to be stored: the thread's table is gone. -/
  | storageDestroyed
deriving DecidableEq, Repr

namespace Event

inductive Level where
  | trace
  | debug
deriving DecidableEq, Repr

/-- Changes of a table's geometry are for tracing alone. -/
def level : Event → Level
  | .resized .. | .roomReclaimed .. | .allocating => .trace
  | .forked .. | .storageDestroyed => .debug

def message : Event → String
  | .resized .. => "resized thread-local table"
  | .roomReclaimed .. => "rehash reclaimed enough room without growing"
  | .forked .. => "forked thread-local table"
  | .allocating => "allocating thread-local table"
  | .storageDestroyed => "thread-local storage destroyed; value dropped"

/-- The numbers that go with the text, by name. -/
def fields : Event → List (String × Nat)
  | .resized old new live => [("old_len", old), ("new_len", new), ("live", live)]
  | .roomReclaimed capacity live => [("capacity", capacity), ("live", live)]
  | .forked capacity inherited => [("capacity", capacity), ("inherited", inherited)]
  | .allocating | .storageDestroyed => []

end Event

def Event.Level.name : Event.Level → String
  | .trace => "trace"
  | .debug => "debug"

end PerThread
