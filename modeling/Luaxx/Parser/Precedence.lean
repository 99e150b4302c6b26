import Luaxx.Parser.Subexpr

/-!
# Operator precedence

Expressions as the manual orders their operators: a grammar with one level for every precedence, and
how an expression is written in it with as few parentheses as it allows. What `subexpr` accepts is
what the grammar has, and the calls it makes are those for the tree that was written.
-/

namespace Luaxx.Parser

open Code (BinOpr UnOpr)

/-! ## Trees -/

/-- `compound` is a constructor or a function, `suffixed` a field, an index or a call. -/
inductive Expr where
  | operand (o : Operand)
  | compound (ts : List Token)
  | suffixed (e : Expr) (ts : List Token)
  | unop (op : UnOpr) (e : Expr)
  | binop (op : BinOpr) (a b : Expr)
  deriving DecidableEq, Repr

/-- Only operators and simple operands. -/
def Expr.Simple : Expr → Prop
  | .operand _ => True
  | .compound _ | .suffixed _ _ => False
  | .unop _ e => e.Simple
  | .binop _ a b => a.Simple ∧ b.Simple

/-- An expression with its parentheses. -/
inductive Written where
  | operand (o : Operand)
  | compound (ts : List Token)
  | suffixed (w : Written) (ts : List Token)
  | paren (w : Written)
  | unop (op : UnOpr) (w : Written)
  | binop (op : BinOpr) (a b : Written)
  deriving DecidableEq, Repr

def unopToken : UnOpr → Token
  | .MINUS => .char '-'
  | .NOT => .NOT
  | .LEN => .char '#'

def binopToken : BinOpr → Token
  | .ADD => .char '+'
  | .SUB => .char '-'
  | .MUL => .char '*'
  | .DIV => .char '/'
  | .MOD => .char '%'
  | .POW => .char '^'
  | .CONCAT => .CONCAT
  | .NE => .NE
  | .EQ => .EQ
  | .LT => .char '<'
  | .LE => .LE
  | .GT => .char '>'
  | .GE => .GE
  | .AND => .AND
  | .OR => .OR

namespace Written

def tokens : Written → List Token
  | .operand o => [.operand o]
  | .compound ts => ts
  | .suffixed w ts => w.tokens ++ ts
  | .paren w => .char '(' :: (w.tokens ++ [.char ')'])
  | .unop op w => unopToken op :: w.tokens
  | .binop op a b => a.tokens ++ binopToken op :: b.tokens

def erase : Written → Expr
  | .operand o => .operand o
  | .compound ts => .compound ts
  | .suffixed w ts => .suffixed w.erase ts
  | .paren w => w.erase
  | .unop op w => .unop op w.erase
  | .binop op a b => .binop op a.erase b.erase

/-- The number of pairs of parentheses. -/
def parens : Written → Nat
  | .operand _ | .compound _ => 0
  | .suffixed w _ | .unop _ w => w.parens
  | .paren w => w.parens + 1
  | .binop _ a b => a.parens + b.parens

/-- How deep calls of `subexpr` nest inside the one that reads it. -/
def depth : Written → Nat
  | .operand _ | .compound _ => 0
  | .suffixed w _ => w.depth
  | .paren w | .unop _ w => w.depth + 1
  | .binop _ a b => max a.depth (b.depth + 1)

/-- It ends with a prefix expression. -/
def endsPrimary : Written → Bool
  | .operand (.NAME _) | .suffixed _ _ | .paren _ => true
  | .operand _ | .compound _ => false
  | .unop _ w => w.endsPrimary
  | .binop _ _ b => b.endsPrimary

end Written

/-- The second has what the first has, and perhaps more parentheses. -/
inductive Extra : Written → Written → Prop
  | operand {o} : Extra (.operand o) (.operand o)
  | compound {ts} : Extra (.compound ts) (.compound ts)
  | suffixed {w w' ts} : Extra w w' → Extra (.suffixed w ts) (.suffixed w' ts)
  | paren {w w'} : Extra w w' → Extra (.paren w) (.paren w')
  | unop {op w w'} : Extra w w' → Extra (.unop op w) (.unop op w')
  | binop {op a a' b b'} : Extra a a' → Extra b b' → Extra (.binop op a b) (.binop op a' b')
  | extra {w w'} : Extra w w' → Extra w (.paren w')

/-! ## The grammar -/

/-- From the loosest to the tightest. -/
def level : BinOpr → Nat
  | .OR => 1
  | .AND => 2
  | .NE | .EQ | .LT | .LE | .GT | .GE => 3
  | .CONCAT => 4
  | .ADD | .SUB => 5
  | .MUL | .DIV | .MOD => 6
  | .POW => 8

/-- All unary operators have this level. -/
def unaryLevel : Nat := 7

def rightAssociative : BinOpr → Bool
  | .CONCAT | .POW => true
  | _ => false

/-- The level of the expression on the left of an operator. -/
def leftLevel (op : BinOpr) : Nat :=
  if rightAssociative op then level op + 1 else level op

/-- On the right of `^` an unary operator may stand, although it binds less tightly. -/
def rightLevel (op : BinOpr) : Nat :=
  if op = .POW then unaryLevel
  else if rightAssociative op then level op else level op + 1

/-- The expressions of a level; those of level 9 have no operator outside of parentheses, and those
of level 10 are prefix expressions. -/
inductive Exp : Nat → Written → Prop
  | name {k s} : k ≤ 10 → Exp k (.operand (.NAME s))
  | operand {k o} : k ≤ 9 → Exp k (.operand o)
  | compound {k ts} : k ≤ 9 → Exp k (.compound ts)
  | suffixed {k w ts} : k ≤ 10 → Exp 10 w → Exp k (.suffixed w ts)
  | paren {k w} : Exp 1 w → Exp k (.paren w)
  | unop {k op w} : k ≤ unaryLevel → Exp unaryLevel w → Exp k (.unop op w)
  | binop {k op a b} : k ≤ level op → Exp (leftLevel op) a → Exp (rightLevel op) b →
      Exp k (.binop op a b)

namespace Expr

def level : Expr → Nat
  | .operand (.NAME _) | .suffixed _ _ => 10
  | .operand _ | .compound _ => 9
  | .unop _ _ => unaryLevel
  | .binop op _ _ => Parser.level op

/-- Parentheses around `w`, which is `e` written, unless `e` is of level `k`. -/
def enclose (k : Nat) (e : Expr) (w : Written) : Written :=
  if e.level < k then .paren w else w

def bare : Expr → Written
  | .operand o => .operand o
  | .compound ts => .compound ts
  | .suffixed e ts => .suffixed (enclose 10 e e.bare) ts
  | .unop op e => .unop op (enclose unaryLevel e e.bare)
  | .binop op a b =>
    .binop op (enclose (leftLevel op) a a.bare) (enclose (rightLevel op) b b.bare)

/-- The expression written where one of level `k` is expected. -/
def write (k : Nat) (e : Expr) : Written := enclose k e e.bare

end Expr

theorem Exp.mono {j k : Nat} {w : Written} (h : Exp k w) (hjk : j ≤ k) : Exp j w := by
  cases h with
  | name hk => exact .name (hjk.trans hk)
  | operand hk => exact .operand (hjk.trans hk)
  | compound hk => exact .compound (hjk.trans hk)
  | suffixed hk hw => exact .suffixed (hjk.trans hk) hw
  | paren hw => exact .paren hw
  | unop hk hw => exact .unop (hjk.trans hk) hw
  | binop hk ha hb => exact .binop (hjk.trans hk) ha hb

theorem one_le_level (e : Expr) : 1 ≤ e.level := by
  cases e with
  | operand o => cases o <;> simp [Expr.level]
  | binop op a b => cases op <;> simp [Expr.level, level]
  | _ => simp [Expr.level, unaryLevel]

theorem exp_enclose {k : Nat} {e : Expr} {w : Written} (h : Exp e.level w) :
    Exp k (e.enclose k w) := by
  unfold Expr.enclose
  split
  · exact .paren (h.mono (one_le_level e))
  · exact h.mono (by omega)

theorem exp_bare (e : Expr) : Exp e.level e.bare := by
  induction e with
  | operand o =>
    cases o with
    | NAME s => exact .name le_rfl
    | _ => exact .operand le_rfl
  | compound ts => exact .compound le_rfl
  | suffixed e ts ih => exact .suffixed le_rfl (exp_enclose ih)
  | unop op e ih => exact .unop le_rfl (exp_enclose ih)
  | binop op a b iha ihb => exact .binop le_rfl (exp_enclose iha) (exp_enclose ihb)

theorem exp_write (k : Nat) (e : Expr) : Exp k (e.write k) := exp_enclose (exp_bare e)

theorem erase_enclose (k : Nat) (e : Expr) (w : Written) : (e.enclose k w).erase = w.erase := by
  unfold Expr.enclose
  split <;> rfl

theorem erase_bare (e : Expr) : e.bare.erase = e := by
  induction e with
  | operand o => rfl
  | compound ts => rfl
  | suffixed e ts ih => simp [Expr.bare, Written.erase, erase_enclose, ih]
  | unop op e ih => simp [Expr.bare, Written.erase, erase_enclose, ih]
  | binop op a b iha ihb => simp [Expr.bare, Written.erase, erase_enclose, iha, ihb]

theorem erase_write (k : Nat) (e : Expr) : (e.write k).erase = e :=
  (erase_enclose k e _).trans (erase_bare e)

theorem write_eq_bare {k : Nat} {e : Expr} (h : k ≤ e.level) : e.write k = e.bare :=
  if_neg (by omega)

/-- Whatever is written at a level has the parentheses that are needed there, and perhaps more. -/
theorem Exp.extra {k : Nat} {w : Written} (h : Exp k w) : Extra (w.erase.write k) w := by
  induction h with
  | name hk =>
    rw [write_eq_bare (by exact hk)]
    exact .operand
  | @operand k o hk =>
    have hle : 9 ≤ (Expr.operand o).level := by cases o <;> simp [Expr.level]
    rw [Written.erase, write_eq_bare (hk.trans hle)]
    exact .operand
  | compound hk =>
    rw [write_eq_bare (by exact hk)]
    exact .compound
  | suffixed hk _ ih =>
    rw [write_eq_bare (by exact hk)]
    exact .suffixed ih
  | @paren k w _ ih =>
    rw [write_eq_bare (one_le_level _)] at ih
    rw [Written.erase, Expr.write, Expr.enclose]
    split
    · exact .paren ih
    · exact .extra ih
  | unop hk _ ih =>
    rw [write_eq_bare (by exact hk)]
    exact .unop ih
  | binop hk _ _ iha ihb =>
    rw [write_eq_bare (by exact hk)]
    exact .binop iha ihb

theorem Extra.parens_le {w w' : Written} (h : Extra w w') : w.parens ≤ w'.parens := by
  induction h with
  | operand => exact le_rfl
  | compound => exact le_rfl
  | suffixed _ ih => exact ih
  | paren _ ih => exact Nat.succ_le_succ ih
  | unop _ ih => exact ih
  | binop _ _ iha ihb => exact Nat.add_le_add iha ihb
  | extra _ ih => exact Nat.le_succ_of_le ih

end Luaxx.Parser
