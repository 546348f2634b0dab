import Treewalk.Tree.Reader

/-!
# The grammar

The grammar of the language as a table: `Rule p qs` says that the phrase `p` may be made of the
phrases `qs` in a row. A repetition or an optional part stands for all its instances, so a phrase
may have infinitely many rules. `Derives ps w` says that the tokens `w` are made of the phrases `ps`
by these rules, and `Program.Derived` that they are a text of declarations.

The table has the conditions on texts in it: the rules for lists of parameters and of arguments stop
at `Read.maxArguments` entries, the two names of a class with a superclass are different, and the
members of such a class are `plainMember`s, which are not methods `init`, up to its first `init`,
an `initMember`, which starts with a call of the inherited one.
-/

namespace Treewalk
namespace Grammar

/-! ### Phrases -/

/-- A kind of token that a rule asks for. -/
inductive Terminal where
  | symbol (s : Symbol)
  | keyword (k : Keyword)
  | identifier
  /-- The identifier with the characters `x`. -/
  | named (x : String)
  /-- The word `from`, which is an identifier. -/
  | origin
  | number
  | string
deriving DecidableEq, Repr

/-- Whether a token is of the kind. -/
def Terminal.has : Terminal → Token → Bool
  | .symbol s, t => t.isSymbol s
  | .keyword k, t => t.isKeyword k
  | .identifier, t => t.isIdentifier
  | .named x, t => t.isIdentifier && t.lexeme == x
  | .origin, t => t.kind == .identifier "from"
  | .number, t => (t.kind matches .number _)
  | .string, t => (t.kind matches .string _)

/-- What a rule is about, and what it is made of. -/
inductive Phrase where
  | token (c : Terminal)
  | declaration | classDecl | member | plainMember | initMember | method (name : Terminal) | field
  | funDecl | params | varDecl | binding | importDecl | exposeDecl
  | statement | exprStmt | forStmt | ifStmt | printStmt | returnStmt | whileStmt | block | superInit
  | expression | assignment | ternary
  | logicOr | logicAnd | equality | comparison | term | factor
  | unary | call | suffix | arguments | primary
deriving DecidableEq, Repr

namespace Phrase

/-- The symbol `s`. -/
abbrev sym (s : Symbol) : Phrase := .token (.symbol s)

/-- The keyword `k`. -/
abbrev word (k : Keyword) : Phrase := .token (.keyword k)

/-- Any identifier. -/
abbrev name : Phrase := .token .identifier

/-- `p` and `more` further ones, with commas between them. -/
def listOf (p : Phrase) (more : Nat) : List Phrase :=
  p :: (List.replicate more [sym .comma, p]).flatten

@[simp] theorem listOf_zero (p : Phrase) : listOf p 0 = [p] := rfl

@[simp] theorem listOf_succ (p : Phrase) (n : Nat) :
    listOf p (n + 1) = p :: sym .comma :: listOf p n := rfl

/-- The binary operators of a level, and the phrase of their operands. -/
def operators? : Phrase → Option (List Terminal × Phrase)
  | .logicOr => some ([.keyword .or], .logicAnd)
  | .logicAnd => some ([.keyword .and], .equality)
  | .equality => some ([.symbol .bangEqual, .symbol .equalEqual], .comparison)
  | .comparison =>
    some ([.symbol .greater, .symbol .greaterEqual, .symbol .less, .symbol .lessEqual], .term)
  | .term => some ([.symbol .minus, .symbol .plus], .factor)
  | .factor => some ([.symbol .slash, .symbol .star, .symbol .percent], .unary)
  | _ => none

/-- The operators that assign. -/
def assigning : List Symbol :=
  [.equal, .plusEqual, .minusEqual, .starEqual, .slashEqual, .percentEqual]

end Phrase

open Phrase

/-! ### Rules -/

/-- `o` is the part `ps`, or nothing. -/
def Maybe (ps o : List Phrase) : Prop := o = [] ∨ o = ps

/-- The members of a class with a superclass: the first `init`, if there is one, starts with a call
of the inherited one. -/
def Inheriting (ms : List Phrase) : Prop :=
  (∃ n, ms = List.replicate n .plainMember) ∨
    ∃ n k, ms = List.replicate n .plainMember ++ .initMember :: List.replicate k .member

/-- The phrases that a phrase may be made of. -/
inductive Rule : Phrase → List Phrase → Prop where
  -- Declarations
  | declaration {p : Phrase}
      (h : p ∈ [classDecl, funDecl, varDecl, importDecl, exposeDecl, statement]) :
      Rule declaration [p]
  | base (n : Nat) : Rule classDecl
      ([word .cls, name, sym .leftBrace] ++ List.replicate n member ++ [sym .rightBrace])
  | derived {x y : String} {ms : List Phrase} (h : x ≠ y) (hms : Inheriting ms) : Rule classDecl
      ([word .cls, token (.named x), sym .less, token (.named y), sym .leftBrace] ++ ms ++
        [sym .rightBrace])
  | member {static : List Phrase} {p : Phrase} (hs : Maybe [word .static] static)
      (h : p ∈ [method .identifier, field]) : Rule member (static ++ [p])
  | plainField {static : List Phrase} (hs : Maybe [word .static] static) :
      Rule plainMember (static ++ [field])
  | plainStatic : Rule plainMember [word .static, method .identifier]
  | plainMethod {x : String} (h : x ≠ initName) : Rule plainMember [method (.named x)]
  | initMember {ps : List Phrase} (hps : Maybe [params] ps) (n : Nat) : Rule initMember
      ([token (.named initName), sym .leftParen] ++ ps ++
        [sym .rightParen, sym .leftBrace, superInit] ++ List.replicate n declaration ++
        [sym .rightBrace])
  | method {c : Terminal} {ps : List Phrase} (hps : Maybe [params] ps) :
      Rule (method c) ([token c, sym .leftParen] ++ ps ++ [sym .rightParen, block])
  | field {type init : List Phrase} (ht : Maybe [sym .colon, name] type)
      (hi : Maybe [sym .equal, expression] init) :
      Rule field ([name] ++ type ++ init ++ [sym .semicolon])
  | funDecl : Rule funDecl [word .fun, method .identifier]
  | params {n : Nat} (h : n < Read.maxArguments) : Rule params (listOf name n)
  | varDecl (n : Nat) : Rule varDecl ([word .var] ++ listOf binding n ++ [sym .semicolon])
  | binding {type init : List Phrase} (ht : Maybe [sym .colon, name] type)
      (hi : Maybe [sym .equal, assignment] init) : Rule binding ([name] ++ type ++ init)
  | importDecl (n : Nat) : Rule importDecl
      ([word .imports, sym .leftBrace] ++ listOf name n ++
        [sym .rightBrace, token .origin, token .string, sym .semicolon])
  | exposeDecl (n : Nat) : Rule exposeDecl
      ([word .expose] ++ listOf name n ++ [sym .semicolon])
  -- Statements
  | statement {p : Phrase}
      (h : p ∈ [exprStmt, forStmt, ifStmt, printStmt, returnStmt, whileStmt, block]) :
      Rule statement [p]
  | leave {k : Keyword} (h : k ∈ [Keyword.break, .continue]) :
      Rule statement [word k, sym .semicolon]
  | exprStmt : Rule exprStmt [expression, sym .semicolon]
  | forStmt {first : Phrase} {cond step : List Phrase}
      (hf : first ∈ [varDecl, exprStmt, sym .semicolon]) (hc : Maybe [expression] cond)
      (hs : Maybe [expression] step) : Rule forStmt
      ([word .for, sym .leftParen, first] ++ cond ++ [sym .semicolon] ++ step ++
        [sym .rightParen, statement])
  | ifStmt {other : List Phrase} (h : Maybe [word .else, statement] other) : Rule ifStmt
      ([word .if, sym .leftParen, expression, sym .rightParen, statement] ++ other)
  | printStmt : Rule printStmt [word .print, expression, sym .semicolon]
  | returnStmt {value : List Phrase} (h : Maybe [expression] value) :
      Rule returnStmt ([word .return] ++ value ++ [sym .semicolon])
  | whileStmt : Rule whileStmt
      [word .while, sym .leftParen, expression, sym .rightParen, statement]
  | block (n : Nat) :
      Rule block ([sym .leftBrace] ++ List.replicate n declaration ++ [sym .rightBrace])
  | superInit {args : List Phrase} (h : Maybe [arguments] args) : Rule superInit
      ([word .super, sym .dot, token (.named initName), sym .leftParen] ++ args ++
        [sym .rightParen, sym .semicolon])
  -- Expressions
  | expression (n : Nat) : Rule expression (listOf assignment n)
  | assignment {target : List Phrase} {op : Symbol} (ht : Maybe [call, sym .dot] target)
      (ho : op ∈ assigning) : Rule assignment (target ++ [name, sym op, assignment])
  | value : Rule assignment [ternary]
  | ternary {branches : List Phrase}
      (h : Maybe [sym .question, expression, sym .colon, ternary] branches) :
      Rule ternary (logicOr :: branches)
  | operators {p q : Phrase} {ops os : List Terminal} (h : p.operators? = some (ops, q))
      (ho : ∀ o ∈ os, o ∈ ops) : Rule p (q :: os.flatMap fun o => [token o, q])
  | unary {op : Symbol} (h : op ∈ [Symbol.bang, .minus]) : Rule unary [sym op, unary]
  | operand : Rule unary [call]
  | call (n : Nat) : Rule call (primary :: List.replicate n suffix)
  | apply {args : List Phrase} (h : Maybe [arguments] args) :
      Rule suffix ([sym .leftParen] ++ args ++ [sym .rightParen])
  | property : Rule suffix [sym .dot, name]
  | arguments {n : Nat} (h : n < Read.maxArguments) : Rule arguments (listOf assignment n)
  | primary {c : Terminal} (h : c ∈ [Terminal.keyword .true, .keyword .false, .keyword .nil,
      .keyword .this, .number, .string, .identifier]) : Rule primary [token c]
  | grouping : Rule primary [sym .leftParen, expression, sym .rightParen]
  | inherited : Rule primary [word .super, sym .dot, name]

/-! ### Derivations -/

/-- The tokens are made of the phrases in a row. -/
inductive Derives : List Phrase → List Token → Prop where
  | nil : Derives [] []
  | token {c : Terminal} {t : Token} {ps : List Phrase} {w : List Token} (h : c.has t)
      (hs : Derives ps w) : Derives (.token c :: ps) (t :: w)
  | rule {p : Phrase} {qs ps : List Phrase} {u w : List Token} (h : Rule p qs) (hq : Derives qs u)
      (hs : Derives ps w) : Derives (p :: ps) (u ++ w)

/-- The tokens are made of the phrases in a row, where `M` says what tokens a phrase has. -/
def Row (M : Phrase → List Token → Prop) : List Phrase → List Token → Prop
  | [], w => w = []
  | p :: ps, w => ∃ u v, w = u ++ v ∧ M p u ∧ Row M ps v

theorem Row.imp {M N : Phrase → List Token → Prop} {ps : List Phrase} {w : List Token}
    (h : Row M ps w) (hMN : ∀ p u, M p u → N p u) : Row N ps w := by
  induction ps generalizing w with
  | nil => exact h
  | cons p ps ih =>
    obtain ⟨u, v, rfl, hu, hv⟩ := h
    exact ⟨u, v, rfl, hMN p u hu, ih hv⟩

theorem Row.split {M : Phrase → List Token → Prop} {ps qs : List Phrase} {w : List Token}
    (h : Row M (ps ++ qs) w) : ∃ u v, w = u ++ v ∧ Row M ps u ∧ Row M qs v := by
  induction ps generalizing w with
  | nil => exact ⟨[], w, rfl, rfl, h⟩
  | cons p ps ih =>
    obtain ⟨u, v, rfl, hu, hv⟩ := h
    obtain ⟨v₁, v₂, rfl, h₁, h₂⟩ := ih hv
    exact ⟨u ++ v₁, v₂, (List.append_assoc ..).symm, ⟨u, v₁, rfl, hu, h₁⟩, h₂⟩

namespace Derives
variable {p : Phrase} {ps qs : List Phrase} {u v w : List Token}

theorem of_rule (h : Rule p qs) (hq : Derives qs w) : Derives [p] w := by
  have := rule h hq nil
  rwa [List.append_nil] at this

theorem append (hp : Derives ps u) (hq : Derives qs v) : Derives (ps ++ qs) (u ++ v) := by
  induction hp with
  | nil => exact hq
  | token h _ ih => exact token h ih
  | rule h hq' _ _ ih =>
    rw [List.append_assoc]
    exact rule h hq' ih

theorem cons (hp : Derives [p] u) (hq : Derives qs v) : Derives (p :: qs) (u ++ v) :=
  hp.append hq

theorem single {c : Terminal} {t : Token} (h : c.has t) : Derives [.token c] [t] := token h nil

/-- What holds of tokens and is kept by every rule holds of all that is derived. -/
theorem row {M : Phrase → List Token → Prop} (htoken : ∀ c t, c.has t → M (.token c) [t])
    (hrule : ∀ p qs w, Rule p qs → Row (fun q u => Derives [q] u ∧ M q u) qs w → M p w)
    (h : Derives ps w) : Row (fun q u => Derives [q] u ∧ M q u) ps w := by
  induction h with
  | nil => rfl
  | @token c t ps w h hs ih => exact ⟨[t], w, rfl, ⟨single h, htoken c t h⟩, ih⟩
  | @rule p qs ps u w h hq hs ihq ihs =>
    exact ⟨u, w, rfl, ⟨of_rule h hq, hrule p qs u h ihq⟩, ihs⟩

/-- The same for one phrase. -/
theorem induct {M : Phrase → List Token → Prop} (htoken : ∀ c t, c.has t → M (.token c) [t])
    (hrule : ∀ p qs w, Rule p qs → Row (fun q u => Derives [q] u ∧ M q u) qs w → M p w)
    (h : Derives [p] w) : M p w := by
  obtain ⟨u, v, rfl, hu, rfl⟩ := row htoken hrule h
  rw [List.append_nil]
  exact hu.2

end Derives

/-- As many phrases as entries, each with tokens made of `p`. -/
theorem derives_replicate {α : Type} {p : Phrase} {tokens : α → List Token} {l : List α}
    (h : ∀ x ∈ l, Derives [p] (tokens x)) :
    Derives (List.replicate l.length p) (l.map tokens).flatten := by
  induction l with
  | nil => exact .nil
  | cons x l ih =>
    obtain ⟨hx, hl⟩ := List.forall_mem_cons.1 h
    exact hx.cons (ih hl)

/-! ### Operators -/

theorem isUnaryOp_iff {t : Token} :
    Read.isUnaryOp t = true ↔ ∃ op ∈ [Symbol.bang, .minus], t.isSymbol op = true := by
  simp [Read.isUnaryOp]

theorem isAssignOp_iff {t : Token} :
    Read.isAssignOp t = true ↔ ∃ op ∈ assigning, t.isSymbol op = true := by
  have h : Read.isAssignOp t = assigning.any t.isSymbol := by
    obtain ⟨kind, lexeme, pos, file⟩ := t
    cases kind with
    | symbol s => cases s <;> rfl
    | _ => rfl
  rw [h, List.any_eq_true]

end Grammar

namespace Level
open Grammar

/-- The phrase of the expressions of a level. -/
def phrase : Level → Phrase
  | .or => .logicOr
  | .and => .logicAnd
  | .equality => .equality
  | .comparison => .comparison
  | .term => .term
  | .factor => .factor

/-- The phrase of the operands of a level. -/
def operand (l : Level) : Phrase :=
  match l.tighter? with
  | some l => l.phrase
  | none => .unary

/-- The operators of a level. -/
def ops (l : Level) : List Terminal :=
  match l.phrase.operators? with
  | some (ops, _) => ops
  | none => []

theorem operand_some {l l' : Level} (h : l.tighter? = some l') : l.operand = l'.phrase := by
  rw [operand, h]

theorem operand_none {l : Level} (h : l.tighter? = none) : l.operand = .unary := by
  rw [operand, h]

theorem operators?_phrase (l : Level) : l.phrase.operators? = some (l.ops, l.operand) := by
  cases l <;> rfl

theorem of_operators? {p q : Phrase} {ops : List Terminal} (h : p.operators? = some (ops, q)) :
    ∃ l : Level, p = l.phrase ∧ ops = l.ops ∧ q = l.operand := by
  unfold Phrase.operators? at h
  split at h
  · cases h
    exact ⟨.or, rfl, rfl, rfl⟩
  · cases h
    exact ⟨.and, rfl, rfl, rfl⟩
  · cases h
    exact ⟨.equality, rfl, rfl, rfl⟩
  · cases h
    exact ⟨.comparison, rfl, rfl, rfl⟩
  · cases h
    exact ⟨.term, rfl, rfl, rfl⟩
  · cases h
    exact ⟨.factor, rfl, rfl, rfl⟩
  · cases h

/-- The operators that reading takes at a level are those of the table. -/
theorem takes_iff {l : Level} {t : Token} : l.takes t = true ↔ ∃ o ∈ l.ops, o.has t = true := by
  have h : l.takes t = l.ops.any fun o => o.has t := by
    obtain ⟨kind, lexeme, pos, file⟩ := t
    cases kind with
    | symbol s => cases l <;> cases s <;> rfl
    | keyword k => cases l <;> cases k <;> rfl
    | _ => cases l <;> rfl
  rw [h, List.any_eq_true]

end Level

/-- The tokens are the declarations `parts`, one after another. -/
def Program.Derived (tokens : List Token) (parts : List (List Token)) : Prop :=
  tokens = parts.flatten ∧ ∀ w ∈ parts, Grammar.Derives [.declaration] w

end Treewalk
