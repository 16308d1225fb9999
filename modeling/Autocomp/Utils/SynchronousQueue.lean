namespace Autocomp

structure SynchronousQueue (T : Type) where
  entries : List T
  deriving DecidableEq

namespace SynchronousQueue

variable {T : Type}

def empty : SynchronousQueue T := ⟨[]⟩

def isEmpty (q : SynchronousQueue T) : Bool := q.entries.isEmpty

def push (q : SynchronousQueue T) (entry : T) : SynchronousQueue T := ⟨q.entries ++ [entry]⟩

/-- The entry popped, if there is one, and the queue left. -/
def pop (q : SynchronousQueue T) : Option T × SynchronousQueue T :=
  (q.entries.head?, ⟨q.entries.tail⟩)

def clear (_ : SynchronousQueue T) : SynchronousQueue T := empty

@[simp] theorem entries_push (q : SynchronousQueue T) (entry : T) :
    (q.push entry).entries = q.entries ++ [entry] := rfl

@[simp] theorem entries_pop (q : SynchronousQueue T) : q.pop.2.entries = q.entries.tail := rfl

@[simp] theorem pop_fst (q : SynchronousQueue T) : q.pop.1 = q.entries.head? := rfl

@[simp] theorem isEmpty_iff (q : SynchronousQueue T) : q.isEmpty = true ↔ q.entries = [] :=
  List.isEmpty_iff

end SynchronousQueue

end Autocomp
