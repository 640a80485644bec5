/-! What can be asked for on the command line. -/
namespace Patchbay
namespace Command

/-- How a patch is played into a file. Times are in seconds. -/
structure Rendering where
  out : String
  note : Nat
  velocity : Float
  length : Float
  hold : Float
  /-- Parameters and their values, in the order in which they are set. -/
  values : List (String × Float)

inductive Task where
  | check
  | graph
  | render (r : Rendering)

end Command

structure Command where
  settings : Option String
  patch : String
  task : Command.Task

end Patchbay
