import TieredStore.Operation
import TieredStore.Proofs.Slices

/-!
# The contents of segments

The content of a segment is the byte string that its callers have written: what
was appended, and the content of every batch that was merged into it, in the
order in which that was done.  Where the bytes are is another matter.
-/

namespace TieredStore

/-- The bytes of every segment, none for one that has not been created. -/
abbrev Contents := SegmentId → Bytes

namespace Contents

def empty : Contents := fun _ => []

def create (content : Contents) (id : SegmentId) : Contents :=
  fun other => if other = id then [] else content other

def append (content : Contents) (id : SegmentId) (data : Bytes) : Contents :=
  fun other => if other = id then content id ++ data else content other

def after (content : Contents) : Operation → Contents
  | .append segment _ _ _ data => content.append segment data
  | .merge parent batch _ _ => content.append parent (content batch)
  | _ => content

variable {content : Contents} {id other : SegmentId} {data : Bytes}

theorem create_eq (h : content id = []) : content.create id = content := by
  funext other
  unfold create
  by_cases heq : other = id
  · rw [if_pos heq, heq, h]
  · rw [if_neg heq]

@[simp] theorem append_self : content.append id data id = content id ++ data := by
  unfold append
  rw [if_pos rfl]

theorem append_of_ne (h : other ≠ id) : content.append id data other = content other := by
  unfold append
  rw [if_neg h]

theorem prefix_append (content : Contents) (id : SegmentId) (data : Bytes) (other : SegmentId) :
    content other <+: content.append id data other := by
  by_cases h : other = id
  · subst h
    rw [append_self]
    exact List.prefix_append _ _
  · exact ⟨[], by rw [append_of_ne h, List.append_nil]⟩

theorem prefix_after (content : Contents) (op : Operation) (id : SegmentId) :
    content id <+: content.after op id := by
  cases op with
  | append segment offset client event data => exact prefix_append _ _ _ _
  | merge parent batch length offset => exact prefix_append _ _ _ _
  | «seal» segment length => exact List.prefix_rfl
  | checkpoint table => exact List.prefix_rfl
  | create segment name => exact List.prefix_rfl
  | createBatch batch name parent => exact List.prefix_rfl
  | truncate segment offset => exact List.prefix_rfl

end Contents
end TieredStore
