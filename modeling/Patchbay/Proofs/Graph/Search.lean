import Mathlib.Algebra.BigOperators.Group.List.Basic
import Mathlib.Algebra.GroupWithZero.Nat
import Patchbay.Proofs.Graph.Schedule

/-! The search with marks: every object carries a mark, and each turn looks at the top of a stack.
It ends on every input, after as many turns as there are objects and readings, with the schedule. -/
namespace Patchbay.Graph
open Relation

/-- How far the search has come with an object. -/
inductive Mark where
  | unvisited
  | onStack
  | done
  deriving Repr, DecidableEq

/-- The search between two turns: a mark for each object, the order so far, and the stack with its
top in front. Each object on it comes with the place of what it reads next. -/
structure Search where
  marks : List Mark
  order : List Nat
  stack : List (Nat × Nat)
  deriving Repr, DecidableEq

namespace Search

/-- Only the root is on the stack, with all that it reads ahead. -/
def start (dependencies : List (List Nat)) (root : Nat) : Search where
  marks := (List.replicate dependencies.length .unvisited).set root .onStack
  order := []
  stack := [(root, 0)]

/-- One turn. It leads to another search, or the search is over. -/
def turn (dependencies : List (List Nat)) (search : Search) :
    Search ⊕ Except Cycle (List Nat) :=
  match search.stack with
  | [] => .inr (.ok search.order)
  | (object, next) :: below =>
    match (dependencies.getD object [])[next]? with
    | none => .inl
        { marks := search.marks.set object .done
          order := search.order ++ [object]
          stack := below }
    | some read =>
      match search.marks[read]? with
      | none | some .done => .inl { search with stack := (object, next + 1) :: below }
      | some .onStack => .inr (.error ⟨read⟩)
      | some .unvisited => .inl
          { search with
            marks := search.marks.set read .onStack
            stack := (read, 0) :: (object, next + 1) :: below }

/-- The result, if the search is over within a number of turns. -/
def run (dependencies : List (List Nat)) : Nat → Search → Option (Except Cycle (List Nat))
  | 0, _ => none
  | turns + 1, search =>
    match search.turn dependencies with
    | .inl later => later.run dependencies turns
    | .inr result => some result

/-- The search for what a root depends on. Nothing is searched for a root that does not exist. -/
def find (dependencies : List (List Nat)) (root turns : Nat) : Option (Except Cycle (List Nat)) :=
  if dependencies.length ≤ root then some (.ok []) else (start dependencies root).run dependencies turns

variable (dependencies : List (List Nat)) (search : Search)

/-- The objects on the stack, each with what it has still to read. -/
def ahead : List (Nat × List Nat) :=
  search.stack.map fun frame => (frame.1, (dependencies.getD frame.1 []).drop frame.2)

/-- The mark an object has to carry. -/
def markOf (object : Nat) : Mark :=
  if object ∈ search.order then .done
  else if object ∈ search.stack.map Prod.fst then .onStack
  else .unvisited

/-- The marks say which objects are done and which are on the stack. -/
def Marked : Prop :=
  search.marks = (List.range dependencies.length).map search.markOf

/-- What reading an object takes: a turn for each of its readings and one to be done with it. -/
def cost (object : Nat) : Nat :=
  (dependencies.getD object []).length + 1

/-- The turns that are left at most: for the objects not visited yet and those on the stack. -/
def effort : Nat :=
  ((waiting dependencies.length search.order.reverse (search.ahead dependencies)).map
    (cost dependencies)).sum + pending (search.ahead dependencies)

/-- What is still to be computed from here. -/
def remaining : Except Cycle (List Nat) :=
  scheduleFrom dependencies search.order.reverse (search.ahead dependencies)

variable {dependencies search} {root : Nat}

private theorem fst_ahead (search : Search) :
    (search.ahead dependencies).map Prod.fst = search.stack.map Prod.fst := by
  simp [ahead]

private theorem set_map_range (n i : Nat) (f : Nat → Mark) (m : Mark) :
    ((List.range n).map f).set i m = (List.range n).map fun j => if j = i then m else f j := by
  apply List.ext_getElem
  · simp
  · intro j hj hk
    simp only [List.getElem_set, List.getElem_map, List.getElem_range]
    by_cases hi : i = j
    · rw [if_pos hi, if_pos hi.symm]
    · rw [if_neg hi, if_neg (Ne.symm hi)]

private theorem getElem?_marks (h : search.Marked dependencies) (object : Nat) :
    search.marks[object]? =
      if object < dependencies.length then some (search.markOf object) else none := by
  rw [h, List.getElem?_map]
  split
  · next hi => rw [List.getElem?_range hi, Option.map_some]
  · next hi => simpa using hi

private theorem markOf_congr {later : Search} {other : Nat}
    (ho : other ∈ later.order ↔ other ∈ search.order)
    (hs : other ∈ later.stack.map Prod.fst ↔ other ∈ search.stack.map Prod.fst) :
    later.markOf other = search.markOf other :=
  if_congr ho rfl (if_congr hs rfl rfl)

/-- Setting one mark is right if it is the one mark that has to change. -/
private theorem Marked.set (h : search.Marked dependencies) {later : Search} {object : Nat}
    {mark : Mark} (hm : later.marks = search.marks.set object mark)
    (ho : later.markOf object = mark)
    (hr : ∀ other, other ≠ object → later.markOf other = search.markOf other) :
    later.Marked dependencies := by
  rw [Marked, hm, h, set_map_range]
  apply List.map_congr_left
  intro other _
  split
  · next he => rw [he, ho]
  · next he => exact (hr other he).symm

private theorem marked_start :
    (start dependencies root).Marked dependencies := by
  rw [Marked, start]
  have hr : List.replicate dependencies.length Mark.unvisited =
      (List.range dependencies.length).map fun _ => Mark.unvisited := by simp
  rw [hr, set_map_range]
  apply List.map_congr_left
  intro other _
  simp [markOf]

private theorem waiting_congr {count : Nat} {done others : List Nat}
    {stack frames : List (Nat × List Nat)}
    (h : ∀ i, (i ∈ done ∨ i ∈ stack.map Prod.fst) ↔ (i ∈ others ∨ i ∈ frames.map Prod.fst)) :
    waiting count done stack = waiting count others frames := by
  simp only [waiting]
  congr 1
  funext i
  rw [Bool.eq_iff_iff]
  simpa using not_congr (h i)

/-- What an object on the stack has still to read does not matter for what waits. -/
private theorem waiting_rest {count : Nat} {done : List Nat} {stack : List (Nat × List Nat)}
    (object : Nat) (rest others : List Nat) :
    waiting count done ((object, rest) :: stack) = waiting count done ((object, others) :: stack) :=
  rfl

private theorem waiting_push {count object : Nat} {done rest : List Nat}
    {stack : List (Nat × List Nat)} :
    waiting count done ((object, rest) :: stack) = (waiting count done stack).erase object := by
  have hn : (waiting count done stack).Nodup := List.nodup_range.filter _
  rw [hn.erase_eq_filter, waiting, waiting, List.filter_filter]
  congr 1
  funext i
  rw [Bool.eq_iff_iff]
  simp
  tauto

private theorem sum_waiting_push {count object : Nat} {done : List Nat}
    {stack : List (Nat × List Nat)} (cost : Nat → Nat) (rest : List Nat) (hc : object < count)
    (hd : object ∉ done) (hs : object ∉ stack.map Prod.fst) :
    cost object + ((waiting count done ((object, rest) :: stack)).map cost).sum =
      ((waiting count done stack).map cost).sum := by
  rw [waiting_push]
  apply List.sum_map_erase
  simpa [waiting, hc, hd] using hs

/-- One search is a turn behind another: as rightly marked, a turn nearer to its end and with the
same left to compute. -/
private structure Follows (dependencies : List (List Nat)) (later search : Search) : Prop where
  marked : later.Marked dependencies
  effort : later.effort dependencies + 1 = search.effort dependencies
  remaining : later.remaining dependencies = search.remaining dependencies

variable {object next read : Nat} {below : List (Nat × Nat)} {marks : List Mark} {order : List Nat}

private theorem ahead_cons :
    ahead dependencies ⟨marks, order, (object, next) :: below⟩ =
      (object, (dependencies.getD object []).drop next) ::
        ahead dependencies ⟨marks, order, below⟩ :=
  rfl

private theorem drop_of_getElem? {l : List Nat} (hr : l[next]? = some read) :
    l.drop next = read :: l.drop (next + 1) := by
  obtain ⟨hlt, rfl⟩ := List.getElem?_eq_some_iff.mp hr
  exact List.drop_eq_getElem_cons hlt

private theorem follows_pop (h : Marked dependencies ⟨marks, order, (object, next) :: below⟩)
    (hn : (dependencies.getD object [])[next]? = none) :
    Follows dependencies ⟨marks.set object .done, order ++ [object], below⟩
      ⟨marks, order, (object, next) :: below⟩ := by
  have hdrop : (dependencies.getD object []).drop next = [] :=
    List.drop_eq_nil_iff.mpr (List.getElem?_eq_none_iff.mp hn)
  have hw : waiting dependencies.length (object :: order.reverse)
        (ahead dependencies ⟨marks, order, below⟩) =
      waiting dependencies.length order.reverse
        ((object, []) :: ahead dependencies ⟨marks, order, below⟩) := by
    apply waiting_congr
    intro i
    simp only [List.mem_cons, List.map_cons]
    tauto
  refine ⟨h.set rfl ?_ ?_, ?_, ?_⟩
  · simp [markOf]
  · intro other hne
    apply markOf_congr
    · simp [hne]
    · simp [hne]
  · simp only [effort, ahead_cons, hdrop, List.reverse_concat, pending, List.foldr_cons,
      List.length_nil]
    rw [← hw]
    simp only [ahead]
    omega
  · simp only [remaining, ahead_cons, hdrop, List.reverse_concat]
    rw [scheduleFrom]
    rfl

private theorem follows_skip (h : Marked dependencies ⟨marks, order, (object, next) :: below⟩)
    (hr : (dependencies.getD object [])[next]? = some read)
    (hd : read ∈ order ∨ dependencies.length ≤ read) :
    Follows dependencies ⟨marks, order, (object, next + 1) :: below⟩
      ⟨marks, order, (object, next) :: below⟩ := by
  have hdrop := drop_of_getElem? hr
  refine ⟨h, ?_, ?_⟩
  · simp only [effort, ahead_cons, hdrop, pending, List.foldr_cons, List.length_cons]
    rw [waiting_rest object (read :: _) ((dependencies.getD object []).drop (next + 1))]
    omega
  · simp only [remaining, ahead_cons, hdrop]
    conv => rhs; rw [scheduleFrom]
    rw [dif_pos (by simpa using hd)]

private theorem follows_push (h : Marked dependencies ⟨marks, order, (object, next) :: below⟩)
    (hr : (dependencies.getD object [])[next]? = some read) (hlt : read < dependencies.length)
    (hd : read ∉ order) (hs : read ∉ ((object, next) :: below).map Prod.fst) :
    Follows dependencies
      ⟨marks.set read .onStack, order, (read, 0) :: (object, next + 1) :: below⟩
      ⟨marks, order, (object, next) :: below⟩ := by
  have hdrop := drop_of_getElem? hr
  refine ⟨h.set rfl ?_ ?_, ?_, ?_⟩
  · simp [markOf, hd]
  · intro other hne
    apply markOf_congr
    · simp
    · simp [hne]
  · have hdone : read ∉ order.reverse := by simpa using hd
    have hstack : read ∉ (ahead dependencies ⟨marks, order, (object, next + 1) :: below⟩).map
        Prod.fst := by rwa [fst_ahead]
    have hw := sum_waiting_push (cost dependencies) (dependencies.getD read []) hlt hdone hstack
    simp only [effort, ahead_cons, hdrop, pending, List.foldr_cons, List.length_cons,
      List.drop_zero] at hw ⊢
    rw [waiting_rest object (read :: _) ((dependencies.getD object []).drop (next + 1))]
    simp only [cost, ahead] at hw ⊢
    omega
  · simp only [remaining, ahead_cons, hdrop]
    conv => rhs; rw [scheduleFrom]
    rw [dif_neg, dif_neg]
    · rfl
    · simpa [fst_ahead] using hs
    · simpa using And.intro hd hlt

/-- What one turn does: it leads on, or it gives what was left to compute. -/
private theorem turn_spec (h : search.Marked dependencies) :
    (∃ later, search.turn dependencies = .inl later ∧ Follows dependencies later search) ∨
      search.turn dependencies = .inr (search.remaining dependencies) := by
  obtain ⟨marks, order, stack⟩ := search
  cases stack with
  | nil =>
    right
    simp [turn, remaining, ahead, scheduleFrom]
  | cons frame below =>
    obtain ⟨object, next⟩ := frame
    cases hr : (dependencies.getD object [])[next]? with
    | none =>
      left
      exact ⟨_, by simp only [turn, hr], follows_pop h hr⟩
    | some read =>
      have hmark := getElem?_marks h read
      by_cases hlt : read < dependencies.length
      · rw [if_pos hlt, markOf] at hmark
        by_cases hd : read ∈ order
        · left
          rw [if_pos hd] at hmark
          exact ⟨_, by simp only [turn, hr, hmark], follows_skip h hr (.inl hd)⟩
        · rw [if_neg hd] at hmark
          by_cases hs : read ∈ ((object, next) :: below).map Prod.fst
          · right
            rw [if_pos hs] at hmark
            simp only [turn, hr, hmark, remaining, ahead_cons, drop_of_getElem? hr]
            rw [scheduleFrom, dif_neg, dif_pos]
            · simpa [fst_ahead] using hs
            · simpa using And.intro hd hlt
          · left
            rw [if_neg hs] at hmark
            exact ⟨_, by simp only [turn, hr, hmark], follows_push h hr hlt hd hs⟩
      · left
        rw [if_neg hlt] at hmark
        exact ⟨_, by simp only [turn, hr, hmark], follows_skip h hr (.inr (Nat.le_of_not_lt hlt))⟩

/-- A search that is marked rightly ends within the turns that are left. -/
private theorem run_eq (h : search.Marked dependencies) {turns : Nat}
    (ht : search.effort dependencies < turns) :
    search.run dependencies turns = some (search.remaining dependencies) := by
  induction turns generalizing search with
  | zero => omega
  | succ turns ih =>
    rcases turn_spec h with ⟨later, hturn, hlater⟩ | hturn
    · have := hlater.effort
      rw [run, hturn, ← hlater.remaining]
      exact ih hlater.marked (by omega)
    · rw [run, hturn]

/-- At the start there is a turn for each object and one for each reading. -/
private theorem effort_start (hroot : root < dependencies.length) :
    (start dependencies root).effort dependencies =
      dependencies.length + (dependencies.map List.length).sum := by
  have hstack : root ∉ ([] : List (Nat × List Nat)).map Prod.fst := List.not_mem_nil
  have hw := sum_waiting_push (cost dependencies) (dependencies.getD root []) hroot
    List.not_mem_nil hstack
  have hall : waiting dependencies.length [] [] = List.range dependencies.length := by
    simp [waiting]
  have hsum : ((List.range dependencies.length).map (cost dependencies)).sum =
      dependencies.length + (dependencies.map List.length).sum := by
    have hlist : (List.range dependencies.length).map (fun i => dependencies.getD i []) =
        dependencies := by
      apply List.ext_getElem
      · simp
      · intro i hi hj
        simp [hj]
    calc ((List.range dependencies.length).map (cost dependencies)).sum
        = (((List.range dependencies.length).map (fun i => dependencies.getD i [])).map
            fun reads => reads.length + 1).sum := by
          rw [List.map_map]
          rfl
      _ = dependencies.length + (dependencies.map List.length).sum := by
          rw [hlist, List.sum_map_add]
          simp [Nat.add_comm]
  rw [hall, hsum] at hw
  simp only [effort, start, ahead, List.map_cons, List.map_nil, List.reverse_nil, List.drop_zero,
    pending, List.foldr_cons, List.foldr_nil, cost] at hw ⊢
  omega

/-- The search ends on every input with the schedule. -/
private theorem find_eq (dependencies : List (List Nat)) (root : Nat) :
    find dependencies root (dependencies.length + (dependencies.map List.length).sum + 1) =
      some (schedule dependencies root) := by
  rw [find, schedule]
  split
  · next hroot => rw [if_neg (Nat.not_lt_of_le hroot)]
  · next hroot =>
    have hroot : root < dependencies.length := Nat.lt_of_not_le hroot
    rw [if_pos hroot, run_eq marked_start]
    · rfl
    · rw [effort_start hroot]
      exact Nat.lt_succ_self _

end Search

/-- What the search finds, for every list of readings and every root. It ends, at the latest when
there was a turn for each object, for each reading and for the end itself. A root that does not
exist has nothing to be computed. Any other has an order exactly if it depends on no cycle; then
the order is a schedule. The object that is reported instead lies on a cycle the root depends on. -/
theorem search_finds_schedule (dependencies : List (List Nat)) (root : Nat) :
    Search.find dependencies root (dependencies.length + (dependencies.map List.length).sum + 1) =
        some (schedule dependencies root) ∧
      (dependencies.length ≤ root → schedule dependencies root = .ok []) ∧
      (root < dependencies.length →
        ((∃ order, schedule dependencies root = .ok order) ↔
          ¬∃ i, ReflTransGen (Reads dependencies) root i ∧ TransGen (Reads dependencies) i i) ∧
        ∀ order, schedule dependencies root = .ok order → IsSchedule dependencies root order) ∧
      ∀ cycle, schedule dependencies root = .error cycle →
        ReflTransGen (Reads dependencies) root cycle.object ∧
          TransGen (Reads dependencies) cycle.object cycle.object := by
  refine ⟨Search.find_eq dependencies root, fun hroot => ?_, fun hroot => ⟨?_, fun order h => ?_⟩,
    fun cycle h => cycle_of_schedule h⟩
  · rw [schedule, if_neg (Nat.not_lt_of_le hroot)]
  · rw [← schedule_eq_error_iff hroot]
    cases schedule dependencies root with
    | ok order => simp
    | error cycle => simp
  · exact isSchedule_of_schedule hroot h

example : Search.find [[1, 2], [3], [3], []] 0 9 = some (.ok [3, 1, 2, 0]) := rfl

example : Search.find [[1], [2], [1]] 0 7 = some (.error ⟨1⟩) := rfl

end Patchbay.Graph
