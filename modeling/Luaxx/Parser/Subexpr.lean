import Luaxx.Code.Expressions

/-!
# Expressions in the parser (`lparser.c`)

The parser reads a list of tokens and calls the code generator, which is a parameter here. So are the
functions that read a constructor, a function body, and a field, an index or a call after a prefix
expression: these may do anything, and read at least one token. The tokens come without their lines.
-/

namespace Luaxx.Parser

open Code (BinOpr UnOpr)

/-- The tokens that are an expression. -/
inductive Operand where
  | NUMBER (r : Number)
  | STRING (ts : List UInt8)
  | NAME (ts : List UInt8)
  | NIL | TRUE | FALSE | DOTS
  deriving DecidableEq, Repr

/-- `char c` is the token of a single character. -/
inductive Token where
  | operand (o : Operand)
  | char (c : Char)
  | NOT | AND | OR | CONCAT | EQ | GE | LE | NE
  | FUNCTION
  /-- The other reserved words. -/
  | reserved (word : Nat)
  deriving DecidableEq, Repr

/-- What a function of the parser does to a state `σ`. -/
abbrev Act (σ : Type) := StateT σ (Except String)

structure Generator (σ E : Type) where
  /-- `init_exp`, `codestring`, `singlevar` or the code for `...`. -/
  operand : Operand → Act σ E
  luaK_dischargevars : E → Act σ E
  luaK_prefix : UnOpr → E → Act σ E
  luaK_infix : BinOpr → E → Act σ E
  luaK_posfix : BinOpr → E → E → Act σ E
  /-- `constructor` or `body` at these tokens, with the number of tokens read after the first. -/
  compound : List Token → Act σ (E × Nat)
  /-- One step of the loop of `primaryexp`, with the number of tokens read after the first. -/
  suffix : E → List Token → Act σ (E × Nat)

def LUAI_MAXCCALLS : Nat := 200

def getunopr : List Token → Option UnOpr
  | .NOT :: _ => some .NOT
  | .char '-' :: _ => some .MINUS
  | .char '#' :: _ => some .LEN
  | _ => none

def getbinopr : List Token → Option BinOpr
  | .char '+' :: _ => some .ADD
  | .char '-' :: _ => some .SUB
  | .char '*' :: _ => some .MUL
  | .char '/' :: _ => some .DIV
  | .char '%' :: _ => some .MOD
  | .char '^' :: _ => some .POW
  | .CONCAT :: _ => some .CONCAT
  | .NE :: _ => some .NE
  | .EQ :: _ => some .EQ
  | .char '<' :: _ => some .LT
  | .LE :: _ => some .LE
  | .char '>' :: _ => some .GT
  | .GE :: _ => some .GE
  | .AND :: _ => some .AND
  | .OR :: _ => some .OR
  | _ => none

/-- `priority[op].left`. -/
def left : BinOpr → Nat
  | .ADD | .SUB => 6
  | .MUL | .DIV | .MOD => 7
  -- power and concat (right associative)
  | .POW => 10
  | .CONCAT => 5
  -- equality and inequality, order
  | .NE | .EQ | .LT | .LE | .GT | .GE => 3
  -- logical (and/or)
  | .AND => 2
  | .OR => 1

/-- `priority[op].right`. -/
def right : BinOpr → Nat
  | .ADD | .SUB => 6
  | .MUL | .DIV | .MOD => 7
  | .POW => 9
  | .CONCAT => 4
  | .NE | .EQ | .LT | .LE | .GT | .GE => 3
  | .AND => 2
  | .OR => 1

def UNARY_PRIORITY : Nat := 8

/-- The tokens that the loop of `primaryexp` goes on at. -/
def atSuffix : List Token → Bool
  | .char '.' :: _ | .char '[' :: _ | .char ':' :: _ => true
  | .char '(' :: _ | .operand (.STRING _) :: _ | .char '{' :: _ => true
  | _ => false

section

variable {σ E : Type} (g : Generator σ E)

/-- The loop of `primaryexp`. Every step reads a token. -/
def suffixLoop : Nat → E → List Token → Act σ (E × List Token)
  | 0, v, ts => pure (v, ts)
  | fuel + 1, v, ts =>
    if atSuffix ts then do
      let (v, n) ← g.suffix v ts
      suffixLoop fuel v (ts.drop (n + 1))
    else pure (v, ts)

section

-- `subexpr`, one level of C calls deeper: the first untreated operator comes second
variable (rec : Nat → List Token → Act σ (E × Option BinOpr × List Token))

def prefixexp : List Token → Act σ (E × List Token)
  | .char '(' :: ts => do
    let (v, _, ts) ← rec 0 ts
    match ts with
    | .char ')' :: ts => do
      let v ← g.luaK_dischargevars v
      pure (v, ts)
    | _ => throw "')' expected"
  | .operand (.NAME s) :: ts => do
    let v ← g.operand (.NAME s)
    pure (v, ts)
  | _ => throw "unexpected symbol"

def primaryexp (ts : List Token) : Act σ (E × List Token) := do
  let (v, ts) ← prefixexp g rec ts
  suffixLoop g ts.length v ts

def simpleexp (ts : List Token) : Act σ (E × List Token) :=
  match ts with
  | .operand (.NAME _) :: _ => primaryexp g rec ts
  | .operand o :: rest => do
    let v ← g.operand o
    pure (v, rest)
  | .char '{' :: _ | .FUNCTION :: _ => do
    let (v, n) ← g.compound ts
    pure (v, ts.drop (n + 1))
  | _ => primaryexp g rec ts

/-- Expand while operators have priorities higher than `limit`. Every operator is a token. -/
def operatorLoop (limit : Nat) :
    Nat → Option BinOpr → E → List Token → Act σ (E × Option BinOpr × List Token)
  | 0, op, v, ts => pure (v, op, ts)
  | fuel + 1, op, v, ts =>
    match op with
    | none => pure (v, none, ts)
    | some op =>
      if left op > limit then do
        let v ← g.luaK_infix op v
        -- read sub-expression with higher priority
        let (v2, nextop, ts) ← rec (right op) ts.tail
        let v ← g.luaK_posfix op v v2
        operatorLoop limit fuel nextop v ts
      else pure (v, some op, ts)

end

/-- `levels` is what `nCcalls` leaves of `LUAI_MAXCCALLS`. -/
def subexpr : Nat → Nat → List Token → Act σ (E × Option BinOpr × List Token)
  | 0, _, _ => throw "chunk has too many syntax levels"
  | levels + 1, limit, ts => do
    let (v, ts) ←
      match getunopr ts with
      | some uop => do
        let (v, _, ts) ← subexpr levels UNARY_PRIORITY ts.tail
        let v ← g.luaK_prefix uop v
        pure (v, ts)
      | none => simpleexp g (subexpr levels) ts
    operatorLoop g (subexpr levels) limit ts.length (getbinopr ts) v ts

/-- `expr`, in a parser that is `nCcalls` C calls deep. -/
def expr (nCcalls : Nat) (ts : List Token) : Act σ (E × List Token) := do
  let (v, _, ts) ← subexpr g (LUAI_MAXCCALLS - nCcalls) 0 ts
  pure (v, ts)

end

end Luaxx.Parser
