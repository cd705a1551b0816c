import Mathlib.Data.List.Basic
import Mathlib.Logic.Function.Basic
import Mathlib.Tactic.Common

/-! # Segments of a linked list

The nodes a chain of links runs through, over any type of nodes and any way to
read a node's link. A segment ends at a link, which is `none` for a whole list.
-/

namespace HotSpot

variable {α : Type*}

/-- Following `next` from the link `start` runs through `nodes` and then holds
the link `stop`. -/
def LinkedSegment (next : α → Option α) : Option α → List α → Option α → Prop
  | start, [], stop => start = stop
  | start, node :: nodes, stop => start = some node ∧ LinkedSegment next (next node) nodes stop

namespace LinkedSegment

variable {next : α → Option α} {start stop : Option α}

@[simp] theorem nil_iff : LinkedSegment next start [] stop ↔ start = stop := Iff.rfl

@[simp] theorem cons_iff {node : α} {nodes : List α} :
    LinkedSegment next start (node :: nodes) stop ↔
      start = some node ∧ LinkedSegment next (next node) nodes stop := Iff.rfl

theorem append_iff {first second : List α} :
    LinkedSegment next start (first ++ second) stop ↔
      ∃ middle, LinkedSegment next start first middle ∧
        LinkedSegment next middle second stop := by
  induction first generalizing start with
  | nil => simp
  | cons node rest ih => simp [ih, and_assoc]

theorem start_eq {nodes : List α} (hlist : LinkedSegment next start nodes none) :
    start = nodes.head? := by
  cases nodes with
  | nil => exact hlist
  | cons node rest => exact hlist.1

/-- Two ways to read links that agree on the nodes give the same segments. -/
theorem congr {next' : α → Option α} {nodes : List α} (heq : ∀ node ∈ nodes, next' node = next node)
    (hlist : LinkedSegment next start nodes stop) : LinkedSegment next' start nodes stop := by
  induction nodes generalizing start with
  | nil => exact hlist
  | cons node rest ih =>
    refine ⟨hlist.1, ?_⟩
    rw [heq node List.mem_cons_self]
    exact ih (fun other hother => heq other (List.mem_cons_of_mem _ hother)) hlist.2

variable [DecidableEq α]

/-- A write to a node outside the segment leaves it as it is. -/
theorem update {node : α} {link : Option α} {nodes : List α} (hnot : node ∉ nodes)
    (hlist : LinkedSegment next start nodes stop) :
    LinkedSegment (Function.update next node link) start nodes stop := by
  refine hlist.congr fun other hother => Function.update_of_ne ?_ _ _
  rintro rfl
  exact hnot hother

/-- Linking a new node in behind another. -/
theorem insert_after {node new : α} {before after : List α}
    (hnodup : (before ++ node :: after).Nodup) (hnew : new ∉ before ++ node :: after)
    (hlist : LinkedSegment next start (before ++ node :: after) stop) :
    LinkedSegment (Function.update (Function.update next new (next node)) node (some new)) start
      (before ++ node :: new :: after) stop := by
  obtain ⟨middle, hbefore, rfl, hafter⟩ := append_iff.mp hlist
  simp only [List.nodup_append, List.nodup_cons, List.mem_append, List.mem_cons, not_or]
    at hnodup hnew
  have hnode : node ∉ before := fun hmem => hnodup.2.2 node hmem node (Or.inl rfl) rfl
  refine append_iff.mpr ⟨_, (hbefore.update hnew.1).update hnode, rfl, by simp, ?_⟩
  rw [Function.update_of_ne hnew.2.1, Function.update_self]
  exact (hafter.update hnew.2.2).update hnodup.2.1.1

/-- Linking the node behind another out. -/
theorem remove_after {node old : α} {before after : List α}
    (hnodup : (before ++ node :: old :: after).Nodup)
    (hlist : LinkedSegment next start (before ++ node :: old :: after) stop) :
    LinkedSegment (Function.update next node (next old)) start (before ++ node :: after) stop := by
  obtain ⟨middle, hbefore, rfl, -, hafter⟩ := append_iff.mp hlist
  simp only [List.nodup_append, List.nodup_cons, List.mem_cons, not_or] at hnodup
  have hnode : node ∉ before := fun hmem => hnodup.2.2 node hmem node (Or.inl rfl) rfl
  refine append_iff.mpr ⟨_, hbefore.update hnode, rfl, ?_⟩
  rw [Function.update_self]
  exact hafter.update hnodup.2.1.1.2

end LinkedSegment

end HotSpot
