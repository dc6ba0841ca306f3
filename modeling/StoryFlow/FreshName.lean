/-! # Free names

A name that is taken gets a number. Among one more number than there are taken names one is free.
-/

namespace StoryFlow

/-- The first of `base_n`, `base_(n+1)`, … that is free, among as many as are tried. -/
def firstNumbered (taken : List String) (base : String) : Nat → Nat → String
  | 0, n => base ++ "_" ++ toString n
  | tries + 1, n =>
    let name := base ++ "_" ++ toString n
    if name ∈ taken then firstNumbered taken base tries (n + 1) else name

/-- The name itself if it is free, else the name with the first free number from two on. -/
def freshName (taken : List String) (base : String) : String :=
  if base ∈ taken then firstNumbered taken base taken.length 2 else base

end StoryFlow
