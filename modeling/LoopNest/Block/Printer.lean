import LoopNest.Block.Basic

/-!
# The text of a statement tree

One statement a line, bodies in braces and two blanks deeper.

* `Block.lines`: the lines of a block at a depth;
* `Block.text`: the text of a block.
-/

namespace LoopNest

/-- A line at a depth, two blanks each. -/
def Block.indented (depth : Nat) (line : String) : String :=
  String.ofList (List.replicate (2 * depth) ' ') ++ line

/-- A loop's header, up to the brace. -/
def LoopIndex.header (kind : LoopKind) (i : LoopIndex) : String :=
  "for " ++ i.var.text ++ " in " ++ i.range.text ++ " " ++ kind.text ++
    (if i.tag.isEmpty then "" else " @" ++ Text.quote i.tag) ++ " \x7b"

/-- A binding, with its value. -/
def Binding.text (b : Binding) : String := b.var.text ++ " = " ++ b.value.text

namespace Block

/-- The lines of a block at a depth. -/
def lines (depth : Nat) : Block → List String
  | seq a b => a.lines depth ++ b.lines depth
  | loop k i body =>
    indented depth (i.header k) :: (body.lines (depth + 1) ++ [indented depth "\x7d"])
  | alloc v shape storage body =>
    indented depth ("alloc " ++ v.text ++ "[" ++ Expr.listing shape ++ "] " ++ v.type.text ++ " " ++
      storage ++ " \x7b") :: (body.lines (depth + 1) ++ [indented depth "\x7d"])
  | bind bs body =>
    indented depth ("remap " ++ Expr.commas (bs.map Binding.text) ++ " \x7b") ::
      (body.lines (depth + 1) ++ [indented depth "\x7d"])
  | eval e => [indented depth (if isNop (eval e) then "nop" else "eval " ++ e.text)]
  | store v is e =>
    [indented depth ("store " ++ v.text ++ "[" ++ Expr.listing is ++ "] = " ++ e.text)]

/-- The text of a block. -/
def text (b : Block) : String := String.join ((b.lines 0).map fun line => line ++ "\n")

end Block

end LoopNest
