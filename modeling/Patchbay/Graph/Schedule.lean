/-! The order in which objects are computed: each after all that it reads. -/
namespace Patchbay.Graph

/-- An object that reads itself, through others or at once. -/
structure Cycle where
  object : Nat
  deriving Repr, DecidableEq

def waiting (count : Nat) (done : List Nat) (stack : List (Nat × List Nat)) : List Nat :=
  (List.range count).filter fun i => !done.contains i && !(stack.map Prod.fst).contains i

/-- How much reading the objects being worked on still have to do. -/
def pending (stack : List (Nat × List Nat)) : Nat :=
  stack.foldr (fun f n => f.2.length + 1 + n) 0

private theorem length_filter_lt {p q : α → Bool} {l : List α} {a : α} (ha : a ∈ l)
    (hq : ∀ x, q x = true → p x = true) (hp : p a = true) (hn : q a = false) :
    (l.filter q).length < (l.filter p).length := by
  induction l with
  | nil => simp at ha
  | cons b l ih =>
    have hle : ∀ m : List α, (m.filter q).length ≤ (m.filter p).length := by
      intro m
      induction m with
      | nil => simp
      | cons c m ihm =>
        by_cases hc : q c = true
        · simp [hc, hq c hc]; omega
        · by_cases hpc : p c = true <;> simp [hc, hpc] <;> omega
    rcases List.mem_cons.mp ha with rfl | ha
    · simp only [List.filter_cons, hp, hn, if_true, List.length_cons]
      have := hle l
      simp only [Bool.false_eq_true, if_false]
      omega
    · have := ih ha
      by_cases hb : q b = true
      · simp [hb, hq b hb]; omega
      · by_cases hpb : p b = true <;> simp [hb, hpb] <;> omega

/-- Work off a stack of objects, each with what it has still to read. Objects that are done come
with the latest first. -/
def scheduleFrom (dependencies : List (List Nat)) (done : List Nat)
    (stack : List (Nat × List Nat)) : Except Cycle (List Nat) :=
  match stack with
  | [] => .ok done.reverse
  | (object, []) :: below => scheduleFrom dependencies (object :: done) below
  | (object, next :: rest) :: below =>
    if _read : next ∈ done ∨ dependencies.length ≤ next then
      scheduleFrom dependencies done ((object, rest) :: below)
    else if _cycle : next = object ∨ next ∈ below.map Prod.fst then .error ⟨next⟩
    else
      scheduleFrom dependencies done
        ((next, dependencies.getD next []) :: (object, rest) :: below)
termination_by ((waiting dependencies.length done stack).length, pending stack)
decreasing_by
  · have : waiting dependencies.length (object :: done) below =
        waiting dependencies.length done ((object, []) :: below) := by
      simp only [waiting]
      congr 1
      funext i
      by_cases hi : i = object <;> simp [hi, Bool.and_left_comm]
    rw [this]
    apply Prod.Lex.right
    simp [pending]
  · apply Prod.Lex.right
    simp [pending]
  · apply Prod.Lex.left
    apply length_filter_lt (List.mem_range.mpr (Nat.lt_of_not_le fun h => _read (.inr h)))
    · intro x hx
      simp at hx ⊢
      exact ⟨hx.1, hx.2.2⟩
    · simp
      simp at _read _cycle
      exact ⟨_read.1, _cycle.1, _cycle.2⟩
    · simp

/-- The objects that `root` depends on, each once and behind all that it reads, with `root` at the
end. Reading what does not exist counts for nothing. -/
def schedule (dependencies : List (List Nat)) (root : Nat) : Except Cycle (List Nat) :=
  if root < dependencies.length then
    scheduleFrom dependencies [] [(root, dependencies.getD root [])]
  else .ok []

end Patchbay.Graph
