import VariantChess.Ply
import VariantChess.Status

/-!
# Logs

A log holds the committed plies and the undone ones that may still be redone. Both are stacks with
the latest ply on top. Redoing is possible only straight after undoing: a new ply, and a ply dropped
for good, empty the undone stack. Running off either end gives nothing; dropping from an empty log
still empties the undone stack.
-/

namespace VariantChess

/-- A committed ply and the status that it led to. -/
structure LogEntry where
  ply : Ply
  status : Status
  deriving DecidableEq, Repr

/-- The committed plies and the undone ones, each with the latest first. -/
structure Log where
  committed : List LogEntry
  undone : List LogEntry
  deriving DecidableEq, Repr

namespace Log

/-- The log of a game in which nothing has happened. -/
def empty : Log := ⟨[], []⟩

instance : Inhabited Log := ⟨empty⟩

/-- Commit an entry. -/
def push (l : Log) (e : LogEntry) : Log := ⟨e :: l.committed, []⟩

/-- The latest committed entry. -/
def last? (l : Log) : Option LogEntry := l.committed.head?

/-- Give the latest committed entry another status. -/
def amend (l : Log) (s : Status) : Log :=
  match l.committed with
  | [] => l
  | e :: rest => ⟨{ e with status := s } :: rest, l.undone⟩

/-- Drop the latest entry for good. -/
def drop (l : Log) : Option LogEntry × Log := (l.committed.head?, ⟨l.committed.tail, []⟩)

/-- Move the latest committed entry to the undone ones. -/
def undo (l : Log) : Option LogEntry × Log :=
  match l.committed with
  | [] => (none, l)
  | e :: rest => (some e, ⟨rest, e :: l.undone⟩)

/-- Commit the latest undone entry again. -/
def redo (l : Log) : Option LogEntry × Log :=
  match l.undone with
  | [] => (none, l)
  | e :: rest => (some e, ⟨e :: l.committed, rest⟩)

/-- The number of committed entries. -/
def length (l : Log) : Nat := l.committed.length

/-- The committed entries, oldest first. -/
def entries (l : Log) : List LogEntry := l.committed.reverse

/-- Undoing and redoing an entry restores the log. -/
theorem redo_undo {l : Log} {e : LogEntry} (h : l.undo.1 = some e) :
    l.undo.2.redo = (some e, l) := by
  obtain ⟨committed, undone⟩ := l
  cases committed with
  | nil => simp [undo] at h
  | cons a rest => simpa [undo, redo] using h

/-- Redoing and undoing an entry restores the log. -/
theorem undo_redo {l : Log} {e : LogEntry} (h : l.redo.1 = some e) :
    l.redo.2.undo = (some e, l) := by
  obtain ⟨committed, undone⟩ := l
  cases undone with
  | nil => simp [redo] at h
  | cons a rest => simpa [undo, redo] using h

end Log

end VariantChess
