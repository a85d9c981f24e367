import KeywordConfig.Constraint

namespace KeywordConfig

-- What the arguments of a keyword are, and what they write.
inductive Kind where
  -- no content of its own: its arguments are ignored
  | base
  -- one mapping, merged into the value under the keyword
  | map
  -- one value that is no mapping, stored by its text
  | scalar
  -- such a value and perhaps a mapping, which is kept under that value's text or appended
  | scalarPlusMap
deriving DecidableEq, Repr

structure Options where
  allowBlock : Bool := false
  cumulative : Bool := false
  -- the calls of its block write into its value and not beside it
  nested : Bool := false
  -- one of these has to enclose the keyword, if there are any
  requireParent : List String := []
  validate : Option Constraint := none

-- Flags of either side hold; parents and constraint of the second side replace those of the first.
def Options.overlay (first second : Options) : Options where
  allowBlock := first.allowBlock || second.allowBlock
  cumulative := first.cumulative || second.cumulative
  nested := first.nested || second.nested
  requireParent := if second.requireParent.isEmpty then first.requireParent else second.requireParent
  validate := if second.validate.isSome then second.validate else first.validate

structure Declaration extends Options where
  kind : Kind

def Declaration.overlay (d : Declaration) (options : Options) : Declaration :=
  { d with toOptions := d.toOptions.overlay options }

structure Registry where
  declarations : Keyed Declaration := []

namespace Registry

def resolve (r : Registry) (keyword : String) : Option Declaration :=
  Keyed.get? r.declarations keyword

def insert (r : Registry) (keyword : String) (declaration : Declaration) : Registry :=
  ⟨Keyed.insert r.declarations keyword declaration⟩

def size (r : Registry) : Nat := r.declarations.length

def isEmpty (r : Registry) : Bool := r.declarations.isEmpty

end Registry

end KeywordConfig
