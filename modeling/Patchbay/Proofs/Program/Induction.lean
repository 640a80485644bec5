import Patchbay.Program.Basic

/-! Induction on expressions together with the arguments of constructions in them. -/
namespace Patchbay

/-- What holds of all expressions holds of their argument lists in the sense of `args`. -/
theorem Expr.induction (args : List (Arg Expr) → Prop) {motive : Expr → Prop}
    (error : ∀ span, motive (.error span))
    (number : ∀ value unit span, motive (.number value unit span))
    (unary : ∀ sign operand span, motive operand → motive (.unary sign operand span))
    (binary : ∀ op left right span, motive left → motive right →
      motive (.binary op left right span))
    (mapping : ∀ polarity source low high span, motive source → motive low → motive high →
      motive (.mapping polarity source low high span))
    (construction : ∀ className name values span, args values →
      motive (.construction ⟨className, name, values, span⟩))
    (socket : ∀ object socket span, motive (.socket object socket span))
    (output : ∀ object output span, motive (.output object output span))
    (name : ∀ ident, motive (.name ident))
    (nil : args [])
    (cons : ∀ label value rest, motive value → args rest → args (⟨label, value⟩ :: rest))
    (e : Expr) : motive e :=
  @Expr.rec motive (fun c => args c.args) args (fun a => motive a.value) error number unary binary
    mapping (fun c => construction c.className c.name c.args c.span) socket output name
    (fun _ _ _ _ h => h) nil (fun a rest => cons a.label a.value rest) (fun _ _ h => h) e

end Patchbay
