import DeclBridge.Decl.Basic

/-!
The comments that may turn out to belong to the next declaration. They form a block: no blank line
lies between one and the next.
-/

namespace DeclBridge

/-- Comments that wait for a declaration, or none. -/
inductive PendingDoc where
  | idle
  | collecting (pending : List Comment)
deriving DecidableEq, Repr

namespace PendingDoc

/-- The waiting comments, in the order in which they came. -/
def pending : PendingDoc → List Comment
  | idle => []
  | collecting pending => pending

def isCollecting : PendingDoc → Bool
  | idle => false
  | collecting _ => true

/-- Whether a blank line lies between the waiting comments and a line. -/
def endsBefore (b : PendingDoc) (line : Nat) : Bool :=
  b.pending.getLast?.any fun last => last.lastLine + 1 < line

/-- The comments that reach a line: those that a blank line parts from it are dropped. -/
def reaching (b : PendingDoc) (line : Nat) : PendingDoc :=
  if b.endsBefore line then idle else b

/-- The waiting comments and one more, which the others have to reach. -/
def push (b : PendingDoc) (c : Comment) : PendingDoc :=
  collecting ((b.reaching c.line).pending ++ [c])

def reset (_ : PendingDoc) : PendingDoc :=
  idle

/-- Gives the waiting comments away. -/
def take (b : PendingDoc) : List Comment × PendingDoc :=
  (b.pending, idle)

/-- Gives the waiting comments to a declaration on a line that they reach. -/
def takeFor (b : PendingDoc) (line : Nat) : List Comment × PendingDoc :=
  (b.reaching line).take

end PendingDoc

end DeclBridge
