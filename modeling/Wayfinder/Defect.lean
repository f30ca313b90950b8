/-
**What can be wrong with a set of pages.**

Each defect names its cause; `Defect.message` gives the wording.
-/

namespace Wayfinder

/-- What can be wrong with the segments of a path. -/
inductive PatternFault where
  /-- A wildcard stands before another segment. -/
  | wildcardNotLast
  /-- A colon without a name. -/
  | emptyParameter
  /-- A parameter name used twice. -/
  | repeatedParameter
deriving DecidableEq, Repr

/-- The wording of a fault. -/
def PatternFault.message : PatternFault → String
  | .wildcardNotLast => "'*' must be the last segment"
  | .emptyParameter => "empty parameter name"
  | .repeatedParameter => "repeated parameter name"

/-- What can be wrong with a set of pages. -/
inductive Defect where
  /-- Two pages share a name. -/
  | duplicateName (name : String)
  /-- A forest has no catch-all page. -/
  | missingFallback
  /-- More than one root matches everything. -/
  | duplicateFallback
  /-- The root that matches everything is not the last one; positions count from zero. -/
  | fallbackNotLast (position total : Nat)
  /-- A page below this parent matches everything. -/
  | nestedFallback (parent : String)
  /-- A page is listed below itself. -/
  | cycle (path : String)
  /-- A page with several pages below it has no name. -/
  | unnamedBranch (path : String) (children : Nat)
  /-- The effective path of a page is no pattern. -/
  | invalidPattern (path : String) (fault : PatternFault)
  /-- A key is referenced and not defined. -/
  | unknownReference (key : String)
  /-- A page is listed below more than one parent. -/
  | multipleParents (key : String)
  /-- A key is defined twice. -/
  | duplicateKey (key : String)
deriving DecidableEq, Repr

/-- The wording of a defect. -/
def Defect.message : Defect → String
  | .duplicateName name => "duplicate route name '" ++ name ++ "'"
  | .missingFallback => "catch-all route '*' is missing"
  | .duplicateFallback => "catch-all route '*' is declared more than once"
  | .fallbackNotLast position total =>
    "catch-all route must be the last root, found at position " ++ toString position ++ " of "
      ++ toString total
  | .nestedFallback parent =>
    "catch-all route must be a root, found below '" ++ parent ++ "'"
  | .cycle path => "route '" ++ path ++ "' appears as its own descendant"
  | .unnamedBranch path children =>
    "route '" ++ path ++ "' has " ++ toString children ++ " children but no name"
  | .invalidPattern path fault =>
    "invalid route pattern '" ++ path ++ "': " ++ fault.message
  | .unknownReference key => "route references unknown key '" ++ key ++ "'"
  | .multipleParents key => "route '" ++ key ++ "' is referenced by more than one parent"
  | .duplicateKey key => "route key '" ++ key ++ "' is defined more than once"

end Wayfinder
