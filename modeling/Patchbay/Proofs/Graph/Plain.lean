import Patchbay.Graph.Basic
import Patchbay.Catalog.Basic
import Patchbay.Proofs.SortedMap

/-! Plain graphs: each mix is there once, under the proper name of its socket, and places in the
text are left out. -/
namespace Patchbay
variable {α : Type}

namespace Contribution

theorem stripSpan_stripSpan (c : Contribution α) : c.stripSpan.stripSpan = c.stripSpan := by
  cases c <;> rfl

end Contribution

theorem Node.stripSpans_stripSpans (n : Node α) : n.stripSpans.stripSpans = n.stripSpans := by
  have htwice : (List.map Contribution.stripSpan : List (Contribution α) → _) ∘
      List.map Contribution.stripSpan = List.map Contribution.stripSpan := by
    funext mix
    simp only [Function.comp_apply, List.map_map]
    exact List.map_congr_left fun c _ => c.stripSpan_stripSpan
  simp only [stripSpans, mk.injEq, true_and, and_true]
  apply SortedMap.ext_get?
  intro key
  rw [SortedMap.get?_map, SortedMap.get?_map, Option.map_map, htwice]

theorem Graph.stripSpans_stripSpans (g : Graph α) : g.stripSpans.stripSpans = g.stripSpans := by
  simp only [stripSpans, List.map_map, mk.injEq, true_and, and_true]
  exact List.map_congr_left fun n _ => n.stripSpans_stripSpans

namespace UnitClass

/-- Whether a name is the proper name of a socket. -/
def isSocketName (c : UnitClass) (name : String) : Bool :=
  (c.sockets.map Jack.canonical).contains name

theorem isSocketName_canonical {c : UnitClass} {j : Jack} (h : j ∈ c.sockets) :
    c.isSocketName j.canonical = true :=
  List.contains_iff_mem.mpr (List.mem_map_of_mem h)

end UnitClass

namespace Node
variable {catalog : Catalog}

/-- Whether the class of an object has a socket of a proper name. An object of no known class has
no sockets. -/
def isSocketName (catalog : Catalog) (n : Node α) (name : String) : Bool :=
  (catalog.resolve? n.className).any (·.isSocketName name)

/-- The object with its mixes under the proper names of its sockets only, and without places. -/
def plain (catalog : Catalog) (n : Node α) : Node α :=
  { n.stripSpans with mixes := n.stripSpans.mixes.restrict (n.isSocketName catalog) }

/-- Plain objects that receive the same at each socket are the same. -/
theorem plain_eq_of_get? {n m : Node α} {c : UnitClass} (hclass : n.className = m.className)
    (hvoice : n.perVoice = m.perVoice) (hc : catalog.resolve? n.className = some c)
    (h : ∀ j ∈ c.sockets, n.stripSpans.mixes.get? j.canonical =
      m.stripSpans.mixes.get? j.canonical) : n.plain catalog = m.plain catalog := by
  have hmixes : (n.plain catalog).mixes = (m.plain catalog).mixes := by
    apply SortedMap.ext_get?
    intro key
    rw [plain, plain, SortedMap.get?_restrict, SortedMap.get?_restrict, isSocketName, isSocketName,
      ← hclass, hc]
    split
    · next hkey =>
      obtain ⟨j, hj, rfl⟩ := List.mem_map.mp (List.contains_iff_mem.mp hkey)
      exact h j hj
    · rfl
  rw [plain, plain] at hmixes ⊢
  rw [mk.injEq]
  exact ⟨hclass, hvoice, hmixes, rfl⟩

/-- At a socket a plain object receives what it received before, but for the places. -/
theorem get?_plain {n : Node α} {c : UnitClass} (hc : catalog.resolve? n.className = some c)
    {j : Jack} (hj : j ∈ c.sockets) :
    (n.plain catalog).mixes.get? j.canonical =
      (n.mixes.get? j.canonical).map (·.map Contribution.stripSpan) := by
  have hkey : n.isSocketName catalog j.canonical = true := by
    rw [isSocketName, hc]
    exact UnitClass.isSocketName_canonical hj
  rw [plain, SortedMap.get?_restrict, if_pos hkey, stripSpans, SortedMap.get?_map]

end Node

namespace Graph

/-- The graph with plain objects. -/
def plain (catalog : Catalog) (g : Graph α) : Graph α :=
  { g with nodes := g.nodes.map (Node.plain catalog) }

end Patchbay.Graph
