/-!
# A sample stylesheet

A stylesheet of any length in which every kind of node occurs: `Sample.block i` is the
`i`-th of its parts, which differ in the names that end in `i`.
-/

namespace LosslessScss.Sample

/-- The lines of a part of the sample, between which its number stands. -/
def pieces : List String :=
  [ "\n$accent-"
  , ": #ff0099;\n\n@mixin respond-"
  , "($name) \x7b\n"
      ++ "  @media (min-width: map-get($breakpoints, $name)) \x7b @content; \x7d\n"
      ++ "\x7d\n\n.card-"
  , " \x7b\n"
      ++ "  padding: .5rem 1rem;\n"
      ++ "  // spacing\n"
      ++ "  margin: 0 auto;\n"
      ++ "  &:not(.disabled):hover, &.active \x7b\n"
      ++ "    background: darken($accent, 10%) !important;\n"
      ++ "  \x7d\n"
      ++ "  > .title + .body ~ span \x7b color: rgba(0, 0, 0, .8) \x7d\n"
      ++ "  [data-state=\"open\"] & \x7b opacity: 1 \x7d\n"
      ++ "  /* nested property */\n"
      ++ "  font: \x7b\n"
      ++ "    family: 'Helvetica', sans-serif;\n"
      ++ "    size: math.div(14px, 16px) * 1rem;\n"
      ++ "  \x7d\n"
      ++ "  @include respond-"
  , "(medium) \x7b padding: 1rem 2rem; \x7d\n\x7d\n" ]

/-- The part with the number `i`. -/
def block (i : Nat) : String := String.intercalate (toString i) pieces

/-- The sample of `n` parts. -/
def stylesheet (n : Nat) : String := String.join ((List.range n).map block)

end LosslessScss.Sample
