import Mathlib.Data.List.Nodup
import Mathlib.Logic.Relation
import Patchbay.Graph.Schedule

/-! The order of objects is a schedule: it lists what the root depends on, each object behind all
that it reads. None is found only where the root depends on a cycle. -/
namespace Patchbay.Graph
open Relation

/-- One object reads another that exists. -/
def Reads (dependencies : List (List Nat)) (i j : Nat) : Prop :=
  j ∈ dependencies.getD i [] ∧ j < dependencies.length

/-- What an order has to be for a root. -/
structure IsSchedule (dependencies : List (List Nat)) (root : Nat) (order : List Nat) : Prop where
  nodup : order.Nodup
  mem_iff : ∀ i, i ∈ order ↔ ReflTransGen (Reads dependencies) root i
  before : ∀ earlier i later, order = earlier ++ i :: later →
    ∀ j, Reads dependencies i j → j ∈ earlier
  last : order.getLast? = some root

/-- Objects that are done, the latest first: each once, and in front of all that it reads. -/
def Done (dependencies : List (List Nat)) : List Nat → Prop
  | [] => True
  | i :: earlier => i ∉ earlier ∧ (∀ j, Reads dependencies i j → j ∈ earlier) ∧
      Done dependencies earlier

/-- A stack whose topmost object is read by `above`. Each object waits for what it has still to
read and for the one above it, which it reads. -/
def Waits (dependencies : List (List Nat)) (done : List Nat) :
    Option Nat → List (Nat × List Nat) → Prop
  | _, [] => True
  | above, (i, rest) :: below =>
    (∀ j, Reads dependencies i j → j ∈ rest ∨ j ∈ done ∨ above = some j) ∧
      (∀ j ∈ rest, j ∈ dependencies.getD i []) ∧ (∀ j, above = some j → Reads dependencies i j) ∧
      i ∉ below.map Prod.fst ∧ i ∉ done ∧ Waits dependencies done (some i) below

/-- What holds whenever the next object is looked at. -/
structure Working (dependencies : List (List Nat)) (root : Nat) (done : List Nat)
    (stack : List (Nat × List Nat)) : Prop where
  behind : Done dependencies done
  waits : Waits dependencies done none stack
  reached : ∀ i, i ∈ done ∨ i ∈ stack.map Prod.fst → ReflTransGen (Reads dependencies) root i
  bottom : (stack.map Prod.fst).getLast?.or done.head? = some root

variable {dependencies : List (List Nat)} {root : Nat} {done : List Nat}
  {stack below : List (Nat × List Nat)}

private theorem Done.split (h : Done dependencies done) {later earlier : List Nat} {i : Nat}
    (he : done = later ++ i :: earlier) : i ∉ earlier ∧ ∀ j, Reads dependencies i j → j ∈ earlier := by
  induction later generalizing done with
  | nil => subst he; exact ⟨h.1, h.2.1⟩
  | cons k later ih => subst he; exact ih h.2.2 rfl

private theorem Done.nodup (h : Done dependencies done) : done.Nodup := by
  induction done with
  | nil => exact List.nodup_nil
  | cons i done ih => exact List.nodup_cons.mpr ⟨h.1, ih h.2.2⟩

private theorem Waits.reads {above : Option Nat} (h : Waits dependencies done above stack) :
    ∀ i ∈ stack.map Prod.fst, ∀ j, above = some j → TransGen (Reads dependencies) i j := by
  induction stack generalizing above with
  | nil => simp
  | cons f below ih =>
    obtain ⟨i, rest⟩ := f
    obtain ⟨_, _, hr, _, _, hb⟩ := h
    intro k hk j hj
    rcases List.mem_cons.mp hk with rfl | hk
    · exact .single (hr j hj)
    · exact (ih hb k hk i rfl).tail (hr j hj)

/-- An object that is done frees the one that waits for it. -/
private theorem Waits.finish {object : Nat} (h : Waits dependencies done (some object) below)
    (hn : object ∉ below.map Prod.fst) : Waits dependencies (object :: done) none below := by
  have grow : ∀ above : Option Nat, ∀ stack : List (Nat × List Nat),
      object ∉ stack.map Prod.fst → Waits dependencies done above stack →
        Waits dependencies (object :: done) above stack := by
    intro above stack
    induction stack generalizing above with
    | nil => exact fun _ h => h
    | cons f stack ih =>
      rintro hf ⟨hw, hs, hr, hd, hdone, hb⟩
      obtain ⟨hne, hf⟩ := not_or.mp (mt List.mem_cons.mpr hf)
      refine ⟨fun j hj => ?_, hs, hr, hd,
        List.not_mem_cons_of_ne_of_not_mem (Ne.symm hne) hdone, ih _ hf hb⟩
      exact (hw j hj).imp_right (Or.imp_left (List.mem_cons_of_mem _))
  cases below with
  | nil => trivial
  | cons f below =>
    obtain ⟨hw, hs, _, hd, hdone, hb⟩ := h
    obtain ⟨hne, hf⟩ := not_or.mp (mt List.mem_cons.mpr hn)
    refine ⟨fun j hj => ?_, hs, by simp, hd, List.not_mem_cons_of_ne_of_not_mem (Ne.symm hne) hdone,
      grow _ _ hf hb⟩
    rcases hw j hj with hj | hj | hj
    · exact .inl hj
    · exact .inr (.inl (List.mem_cons_of_mem _ hj))
    · cases hj
      exact .inr (.inl List.mem_cons_self)

/-- With nothing left on the stack the objects done are a schedule. -/
private theorem Working.isSchedule (h : Working dependencies root done []) :
    IsSchedule dependencies root done.reverse := by
  have hhead : done.head? = some root := by simpa using h.bottom
  have hbefore : ∀ earlier i later, done.reverse = earlier ++ i :: later →
      ∀ j, Reads dependencies i j → j ∈ earlier := by
    intro earlier i later he j hj
    have hd : done = later.reverse ++ i :: earlier.reverse := by
      rw [← done.reverse_reverse, he]
      simp
    exact List.mem_reverse.mp ((h.behind.split hd).2 j hj)
  refine ⟨List.nodup_reverse.mpr h.behind.nodup, fun i => ⟨fun hi => ?_, fun hi => ?_⟩, hbefore, ?_⟩
  · exact h.reached i (.inl (List.mem_reverse.mp hi))
  · induction hi with
    | refl => exact List.mem_reverse.mpr (List.mem_of_mem_head? hhead)
    | tail _ hr ih =>
      obtain ⟨earlier, later, he⟩ := List.append_of_mem ih
      rw [he]
      exact List.mem_append_left _ (hbefore _ _ _ he _ hr)
  · rw [List.getLast?_reverse, hhead]

private theorem Working.pop {object : Nat}
    (h : Working dependencies root done ((object, []) :: below)) :
    Working dependencies root (object :: done) below := by
  obtain ⟨hw, _, _, hd, hn, hb⟩ := h.waits
  refine ⟨⟨hn, fun j hj => ?_, h.behind⟩, hb.finish hd, fun i hi => h.reached i ?_, ?_⟩
  · simpa using hw j hj
  · rcases hi with hi | hi
    · rcases List.mem_cons.mp hi with rfl | hi
      · exact .inr List.mem_cons_self
      · exact .inl hi
    · exact .inr (List.mem_cons_of_mem _ hi)
  · have hbot := h.bottom
    cases below with
    | nil => simpa using hbot
    | cons f below =>
      rw [List.map_cons, List.map_cons, List.getLast?_cons_cons] at hbot
      rw [List.map_cons, List.getLast?_cons, Option.some_or]
      rwa [List.getLast?_cons, Option.some_or] at hbot

private theorem Working.skip {object next : Nat} {rest : List Nat}
    (h : Working dependencies root done ((object, next :: rest) :: below))
    (hnext : next ∈ done ∨ dependencies.length ≤ next) :
    Working dependencies root done ((object, rest) :: below) := by
  obtain ⟨hw, hs, _, hd, hn, hb⟩ := h.waits
  refine ⟨h.behind, ⟨fun j hj => ?_, fun j hj => hs j (List.mem_cons_of_mem _ hj), by simp, hd, hn,
    hb⟩, h.reached, h.bottom⟩
  rcases hw j hj with hr | hr
  · rcases List.mem_cons.mp hr with rfl | hr
    · rcases hnext with hnext | hnext
      · exact .inr (.inl hnext)
      · exact absurd hj.2 (Nat.not_lt_of_le hnext)
    · exact .inl hr
  · exact .inr hr

private theorem Working.push {object next : Nat} {rest : List Nat}
    (h : Working dependencies root done ((object, next :: rest) :: below))
    (hnew : ¬(next ∈ done ∨ dependencies.length ≤ next))
    (hfree : ¬(next = object ∨ next ∈ below.map Prod.fst)) :
    Working dependencies root done
      ((next, dependencies.getD next []) :: (object, rest) :: below) := by
  obtain ⟨hw, hs, _, hd, hn, hb⟩ := h.waits
  obtain ⟨hdone, hlt⟩ := not_or.mp hnew
  have hreads : Reads dependencies object next := ⟨hs next List.mem_cons_self, Nat.not_le.mp hlt⟩
  refine ⟨h.behind, ⟨fun j hj => .inl hj.1, fun j hj => hj, by simp, ?_, hdone, ?_⟩, ?_, ?_⟩
  · simpa using hfree
  · refine ⟨fun j hj => ?_, fun j hj => hs j (List.mem_cons_of_mem _ hj), ?_, hd, hn, hb⟩
    · rcases hw j hj with hr | hr | hr
      · rcases List.mem_cons.mp hr with rfl | hr
        · exact .inr (.inr rfl)
        · exact .inl hr
      · exact .inr (.inl hr)
      · cases hr
    · rintro j ⟨⟩
      exact hreads
  · intro i hi
    rcases hi with hi | hi
    · exact h.reached i (.inl hi)
    · rcases List.mem_cons.mp hi with rfl | hi
      · exact (h.reached object (.inr List.mem_cons_self)).tail hreads
      · exact h.reached i (.inr hi)
  · have hbot := h.bottom
    rw [List.map_cons] at hbot
    simpa [List.getLast?_cons_cons] using hbot

/-- An object that is met again while it waits reads itself. -/
private theorem Working.cycle {object next : Nat} {rest : List Nat}
    (h : Working dependencies root done ((object, next :: rest) :: below))
    (hnew : ¬(next ∈ done ∨ dependencies.length ≤ next))
    (hmet : next = object ∨ next ∈ below.map Prod.fst) :
    ReflTransGen (Reads dependencies) root next ∧ TransGen (Reads dependencies) next next := by
  obtain ⟨_, hs, _, _, _, hb⟩ := h.waits
  have hreads : Reads dependencies object next :=
    ⟨hs next List.mem_cons_self, Nat.not_le.mp (not_or.mp hnew).2⟩
  refine ⟨(h.reached object (.inr List.mem_cons_self)).tail hreads, ?_⟩
  rcases hmet with rfl | hmet
  · exact .single hreads
  · exact (hb.reads next hmet object rfl).tail hreads

private theorem scheduleFrom_spec (h : Working dependencies root done stack) :
    match scheduleFrom dependencies done stack with
    | .ok order => IsSchedule dependencies root order
    | .error cycle => ReflTransGen (Reads dependencies) root cycle.object ∧
        TransGen (Reads dependencies) cycle.object cycle.object := by
  fun_induction scheduleFrom dependencies done stack with
  | case1 done => exact h.isSchedule
  | case2 done object below ih => exact ih h.pop
  | case3 done object next rest below hread ih => exact ih (h.skip hread)
  | case4 done object next rest below hread hcycle => exact h.cycle hread hcycle
  | case5 done object next rest below hread hcycle ih => exact ih (h.push hread hcycle)

private theorem working_root (dependencies : List (List Nat)) (root : Nat) :
    Working dependencies root [] [(root, dependencies.getD root [])] where
  behind := trivial
  waits := ⟨fun _ hj => .inl hj.1, fun _ hj => hj, by simp, by simp, by simp, trivial⟩
  reached := by
    intro i hi
    have hi : i = root := by simpa using hi
    exact hi ▸ .refl
  bottom := rfl

/-- The order found for a root that exists is a schedule. -/
theorem isSchedule_of_schedule {order : List Nat} (hroot : root < dependencies.length)
    (h : schedule dependencies root = .ok order) : IsSchedule dependencies root order := by
  rw [schedule, if_pos hroot] at h
  have hs := scheduleFrom_spec (working_root dependencies root)
  rwa [h] at hs

/-- The object reported lies on a cycle that the root depends on. -/
theorem cycle_of_schedule {cycle : Cycle} (h : schedule dependencies root = .error cycle) :
    ReflTransGen (Reads dependencies) root cycle.object ∧
      TransGen (Reads dependencies) cycle.object cycle.object := by
  rw [schedule] at h
  split at h
  · next hroot =>
    have hs := scheduleFrom_spec (working_root dependencies root)
    rwa [h] at hs
  · cases h

/-- What comes earlier in a schedule is read, directly or not; nothing reads itself. -/
theorem IsSchedule.acyclic {order : List Nat} (h : IsSchedule dependencies root order) {i : Nat}
    (hi : i ∈ order) : ¬TransGen (Reads dependencies) i i := by
  intro hc
  obtain ⟨earlier, later, he⟩ := List.append_of_mem hi
  have hmem : ∀ j, TransGen (Reads dependencies) i j → j ∈ earlier := by
    intro j hj
    induction hj with
    | single hr => exact h.before _ _ _ he _ hr
    | tail _ hr ih =>
      obtain ⟨first, last, hsplit⟩ := List.append_of_mem ih
      have := h.before first _ (last ++ i :: later) (by rw [he, hsplit]; simp) _ hr
      rw [hsplit]
      exact List.mem_append_left _ this
  have hn := h.nodup
  rw [he] at hn
  exact List.disjoint_of_nodup_append hn (hmem i hc) List.mem_cons_self

/-- A root that exists has no schedule exactly if it depends on a cycle. -/
theorem schedule_eq_error_iff (hroot : root < dependencies.length) :
    (∃ cycle, schedule dependencies root = .error cycle) ↔
      ∃ i, ReflTransGen (Reads dependencies) root i ∧ TransGen (Reads dependencies) i i := by
  constructor
  · rintro ⟨cycle, h⟩
    exact ⟨cycle.object, cycle_of_schedule h⟩
  · rintro ⟨i, hi, hc⟩
    cases h : schedule dependencies root with
    | error cycle => exact ⟨cycle, rfl⟩
    | ok order =>
      have hs := isSchedule_of_schedule hroot h
      exact absurd hc (hs.acyclic ((hs.mem_iff i).mpr hi))

/-- Only what is read counts for a schedule, not how often or in which order. -/
theorem IsSchedule.congr {others : List (List Nat)} {order : List Nat}
    (h : IsSchedule dependencies root order)
    (hr : ∀ i j, Reads others i j ↔ Reads dependencies i j) : IsSchedule others root order := by
  have he : Reads others = Reads dependencies := by
    funext i j
    exact propext (hr i j)
  refine ⟨h.nodup, fun i => ?_, fun earlier i later hi j hj => ?_, h.last⟩
  · rw [he]
    exact h.mem_iff i
  · exact h.before earlier i later hi j ((hr i j).mp hj)

end Patchbay.Graph
