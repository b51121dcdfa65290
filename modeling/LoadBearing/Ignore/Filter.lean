import LoadBearing.Ignore.Rule

/-! # Patterns of settings

The patterns of paths in the settings follow the rules of ignore files, except that a pattern that
ends in a slash excludes what is inside such a directory at any depth, and that a slash at its start
means nothing.
-/

namespace LoadBearing

structure PathFilter where
  rules : List IgnoreRule

namespace PathFilter

/-- The lines of rules for a pattern.  Each is marked, so that a match excludes. -/
def linesOf (pattern : String) : List String :=
  let body := Text.trimStartOf '/' pattern
  if Text.endsWith body "/" then ["!" ++ body ++ "**", "!**/" ++ body ++ "**"] else ["!" ++ body]

def ofPatterns (patterns : List String) : Except GlobError PathFilter := do
  let rules ← (patterns.flatMap linesOf).mapM (IgnoreRule.ofLine false)
  .ok ⟨rules.filterMap id⟩

def excludes (filter : PathFilter) (path : String) (isDirectory : Bool) : Bool :=
  IgnoreRule.verdict? filter.rules path isDirectory = some false

def ignores (filter : PathFilter) (path : String) : Bool := filter.excludes path false

end PathFilter

end LoadBearing
