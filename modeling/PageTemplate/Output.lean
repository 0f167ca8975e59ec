import PageTemplate.Bytes

/-!
Rendered text as it grows. The output is a stack of fragments; the number of fragments serves as a mark
to which the output can be cut back.
-/

namespace PageTemplate

/-- Fragments of rendered text, the newest first. -/
structure Output where
  fragments : List Bytes := []
  deriving DecidableEq, Repr, Inhabited

namespace Output

def append (o : Output) (s : Bytes) : Output := if s.isEmpty then o else ⟨s :: o.fragments⟩

def mark (o : Output) : Nat := o.fragments.length

def truncate (o : Output) (n : Nat) : Output := ⟨o.fragments.drop (o.fragments.length - n)⟩

def text (o : Output) : Bytes := o.fragments.reverse.flatten

@[simp] theorem text_append (o : Output) (s : Bytes) : (o.append s).text = o.text ++ s := by
  unfold append text
  split
  · simp_all
  · simp

@[simp] theorem truncate_mark (o : Output) : o.truncate o.mark = o := by simp [truncate, mark]

end Output

end PageTemplate
