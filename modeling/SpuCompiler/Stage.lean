/-! Stages of the compiler, as reports name them. -/

namespace SpuCompiler

inductive Stage where
  | decode | trees | select | layout
  deriving DecidableEq

namespace Stage

def all : List Stage := [.decode, .trees, .select, .layout]

def label : Stage → String
  | .decode => "DECODE"
  | .trees => "IR"
  | .select => "SELECT"
  | .layout => "LAYOUT"

end Stage

end SpuCompiler
