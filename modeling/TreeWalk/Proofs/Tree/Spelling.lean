import TreeWalk.Program
import TreeWalk.Proofs.Tree.Field
import TreeWalk.Tree.Spelling

/-!
# Every spelling of a tree is read as the tree

A node is read by the reader for its kind, in which the trees below it are read by a reader with
one level less.  So each kind of node has a lemma about its content, with what is known of the
children as hypotheses, and the theorem follows the tree (`decodes_spelling`).  It holds at every
number of levels: every node but a bare name opens a container, so where fewer containers may be
open than there are levels, no path from the root has more nodes than levels.

A program file may have so many containers open that the reader just has room for them, and what is
skipped in an object needs none.
-/

namespace TreeWalk

open Json

namespace Tree

/-! ## Operators and the parts of records -/

section Parts

variable {tree : Reader Tree} {levels : Nat} {f : Field} {v : f.kind.Value} {p : Spelling}

theorem decodes_operator {τ : Type} {find : String → Option τ} {keyword : String} {op : τ}
    (hfind : find keyword = some op) (keywords : List String) :
    Decodes levels (operator find keywords) op (.word keyword) :=
  decodes_word hfind rfl rfl

theorem writtenAs_given (h : Decodes levels (f.kind.read tree) v p) :
    f.WrittenAs levels tree v (.given f.key p) :=
  ⟨rfl, nofun, h⟩

/-- What may be left out is what a missing field stands for. -/
theorem some_none_of_isNone {α : Type} {o : Option α} (h : o.isNone = true) :
    some none = some o := by
  rw [Option.isNone_iff_eq_none.mp h]

/-- A list of names that may be absent is taken however it is written. -/
theorem decodes_names : ∀ names : Option (List String),
    Decodes levels (optional (array string)) names (nameSpelling names)
  | none => decodes_optional_none
  | some names => by
    have hnames : List.Forall₂ (Decodes levels string) names (names.map .string) :=
      List.forall₂_map_right_iff.mpr (List.forall₂_same.mpr fun name _ => decodes_string name)
    exact decodes_optional_some (decodes_array hnames) (neverNull_array _)

end Parts

/-! ## The content of nodes -/

section Content

variable {tree : Reader Tree} {levels : Nat} {left right body test : Tree} {p q r : Spelling}

theorem decodes_float (x : FloatBits) :
    Decodes levels (content tree .float) (float x) (floatSpelling x) := by
  rintro room ts hroom ⟨y, rfl, hts⟩
  have htakes : Decodes levels (content tree .float) (float (.ofFloat y)) (.float64 y) :=
    (decodes_float64 y).bind rfl
  exact htakes hroom hts

theorem decodes_unary (op : UnaryOp) {operand : Tree} (h : Decodes levels tree operand p) :
    Decodes levels (content tree .unary) (unary op operand)
      (.record [.given "op" (.word op.keyword), .given "operand" p]) := by
  have hfields : Fields.WrittenAs levels tree Tag.unary.fields (op, operand, ())
      [.given "op" (.word op.keyword), .given "operand" p] :=
    .cons (writtenAs_given (decodes_operator (UnaryOp.ofKeyword?_keyword op) _))
      (.cons (writtenAs_given h) .nil)
  exact (Fields.decodes_record hfields (by decide) _).bind rfl

theorem decodes_binary (op : BinaryOp) (hleft : Decodes levels tree left p)
    (hright : Decodes levels tree right q) :
    Decodes levels (content tree .binary) (binary op left right)
      (.record [.given "op" (.word op.keyword), .given "left" p, .given "right" q]) := by
  have hfields : Fields.WrittenAs levels tree Tag.binary.fields (op, left, right, ())
      [.given "op" (.word op.keyword), .given "left" p, .given "right" q] :=
    .cons (writtenAs_given (decodes_operator (BinaryOp.ofKeyword?_keyword op) _))
      (.cons (writtenAs_given hleft) (.cons (writtenAs_given hright) .nil))
  exact (Fields.decodes_record hfields (by decide) _).bind rfl

theorem decodes_assign (target : String) {value : Tree} (h : Decodes levels tree value p) :
    Decodes levels (content tree .assign) (assign target value)
      (.record [.given "target" (.string target), .given "value" p]) := by
  have hfields : Fields.WrittenAs levels tree Tag.assign.fields (target, value, ())
      [.given "target" (.string target), .given "value" p] :=
    .cons (writtenAs_given (decodes_string target)) (.cons (writtenAs_given h) .nil)
  exact (Fields.decodes_record hfields (by decide) _).bind rfl

theorem decodes_cond {elseBranch : Option Tree} (htest : Decodes levels tree test p)
    (hthen : Decodes levels tree body q)
    (helse : Decodes levels (optional tree) elseBranch r) :
    Decodes levels (content tree .cond) (cond test body elseBranch)
      (.record [.given "cond" p, .given "then" q, ⟨"else", r, elseBranch.isNone⟩]) := by
  have hfields : Fields.WrittenAs levels tree Tag.cond.fields (test, body, elseBranch, ())
      [.given "cond" p, .given "then" q, ⟨"else", r, elseBranch.isNone⟩] :=
    .cons (writtenAs_given htest)
      (.cons (writtenAs_given hthen) (.cons ⟨rfl, some_none_of_isNone, helse⟩ .nil))
  exact (Fields.decodes_record hfields (by decide) _).bind rfl

theorem decodes_funcDef (name : String) (params : Option (List String))
    (h : Decodes levels tree body p) :
    Decodes levels (content tree .funcDef) (funcDef name params body)
      (.record [.given "name" (.string name), ⟨"params", nameSpelling params, params.isNone⟩,
        .given "body" p]) := by
  have hfields : Fields.WrittenAs levels tree Tag.funcDef.fields (name, params, body, ())
      [.given "name" (.string name), ⟨"params", nameSpelling params, params.isNone⟩,
        .given "body" p] :=
    .cons (writtenAs_given (decodes_string name))
      (.cons ⟨rfl, some_none_of_isNone, decodes_names params⟩ (.cons (writtenAs_given h) .nil))
  exact (Fields.decodes_record hfields (by decide) _).bind rfl

theorem decodes_call (callee : String) {args : Option (List Tree)}
    (h : Decodes levels (optional (array tree)) args p) :
    Decodes levels (content tree .call) (call callee args)
      (.record [.given "callee" (.string callee), ⟨"args", p, args.isNone⟩]) := by
  have hfields : Fields.WrittenAs levels tree Tag.call.fields (callee, args, ())
      [.given "callee" (.string callee), ⟨"args", p, args.isNone⟩] :=
    .cons (writtenAs_given (decodes_string callee)) (.cons ⟨rfl, some_none_of_isNone, h⟩ .nil)
  exact (Fields.decodes_record hfields (by decide) _).bind rfl

end Content

/-! ## Trees -/

/-- A node is taken when its content is taken with one level less. -/
theorem decodes_node {t : Tree} (tag : Tag) {p : Spelling}
    (h : ∀ levels, Decodes levels (content (reader levels) tag) t p) (levels : Nat) :
    Decodes levels (reader levels) t (.tagged tag.keyword p) := by
  cases levels with
  | zero => exact fun room ts hroom => absurd hroom (Nat.not_lt_zero room)
  | succ levels => exact decodes_tagged (Tag.ofKeyword?_keyword tag) (h levels)

theorem decodes_nil (levels : Nat) :
    Decodes levels (reader levels) nil (.word Tag.nil.keyword) := by
  cases levels with
  | zero => exact fun room ts hroom => absurd hroom (Nat.not_lt_zero room)
  | succ levels => exact decodes_word (Tag.ofKeyword?_keyword .nil) rfl rfl

theorem neverNull_spelling (t : Tree) : NeverNull t.spelling := by
  cases t with
  | nil => exact neverNull_word _
  | _ => exact neverNull_tagged _ _

mutual

/-- **A tree is taken from each of its spellings**, at every number of levels. -/
theorem decodes_spelling : ∀ (t : Tree) (levels : Nat), Decodes levels (reader levels) t t.spelling
  | ident name, levels => decodes_node .ident (fun _ => (decodes_string name).bind rfl) levels
  | int n, levels => decodes_node .int (fun _ => (decodes_int64 n).bind rfl) levels
  | float x, levels => decodes_node .float (fun _ => decodes_float x) levels
  | nil, levels => decodes_nil levels
  | unary op operand, levels =>
    decodes_node .unary (fun below => decodes_unary op (decodes_spelling operand below)) levels
  | binary op left right, levels =>
    decodes_node .binary (fun below => decodes_binary op (decodes_spelling left below)
      (decodes_spelling right below)) levels
  | assign target value, levels =>
    decodes_node .assign (fun below => decodes_assign target (decodes_spelling value below)) levels
  | print argument, levels =>
    decodes_node .print (fun below => (decodes_spellingOption argument below).bind rfl) levels
  | cond test thenBranch elseBranch, levels =>
    decodes_node .cond (fun below => decodes_cond (decodes_spelling test below)
      (decodes_spelling thenBranch below) (decodes_spellingOption elseBranch below)) levels
  | suite statements, levels =>
    decodes_node .suite
      (fun below => (decodes_array (decodes_spellingList statements below)).bind rfl) levels
  | funcDef name params body, levels =>
    decodes_node .funcDef
      (fun below => decodes_funcDef name params (decodes_spelling body below)) levels
  | call callee args, levels =>
    decodes_node .call (fun below => decodes_call callee (decodes_spellingArgs args below)) levels
  | ret value, levels =>
    decodes_node .ret (fun below => (decodes_spellingOption value below).bind rfl) levels

theorem decodes_spellingOption : ∀ (o : Option Tree) (levels : Nat),
    Decodes levels (optional (reader levels)) o (spellingOption o)
  | none, _ => decodes_optional_none
  | some t, levels => decodes_optional_some (decodes_spelling t levels) (neverNull_spelling t)

theorem decodes_spellingList : ∀ (ts : List Tree) (levels : Nat),
    List.Forall₂ (Decodes levels (reader levels)) ts (spellingList ts)
  | [], _ => .nil
  | t :: ts, levels => .cons (decodes_spelling t levels) (decodes_spellingList ts levels)

theorem decodes_spellingArgs : ∀ (args : Option (List Tree)) (levels : Nat),
    Decodes levels (optional (array (reader levels))) args (spellingArgs args)
  | none, _ => decodes_optional_none
  | some ts, levels =>
    decodes_optional_some (decodes_array (decodes_spellingList ts levels)) (neverNull_array _)

end

/-! ## Program files -/

/-- A tree is read from each text that spells it. -/
theorem ofText_eq {t : Tree} {text : String} (h : t.Spells text) : ofText text = .ok t := by
  obtain ⟨tokens, hspelled, hspaced⟩ := h
  obtain ⟨rest, hblank, hahead⟩ := exists_ahead_of_spaced hspaced
  obtain ⟨-, htakes⟩ := decodes_spelling t maxDepth (by decide : maxOpen < maxDepth) hspelled
  have hread := htakes hahead (delimited_of_blank hblank) (Nat.lt_succ_self _)
  have hdepth : maxOpen + 1 = maxDepth := rfl
  rw [hdepth] at hread
  rw [ofText, whole, hread]
  dsimp only
  rw [skipBlank_of_blank hblank]
  rfl

end Tree

namespace Program

/-- **Every spelling of a tree is read as the tree**, so the program of the text is the program of
the tree. -/
theorem ofText_of_spells {t : Tree} {text : String} (h : t.Spells text) :
    Tree.ofText text = .ok t ∧ ofText text = ofTree t := by
  have hread := Tree.ofText_eq h
  refine ⟨hread, ?_⟩
  rw [ofText, hread]

end Program

/-! ## A spelling with many choices -/

namespace Tree

/-- A block with a choice. -/
def choosing : Tree := .suite [.cond (.ident "x") .nil none]

/-- The members of the choice: its branch, then one that means nothing, then its test, whose name
has an escape.  The other branch is left out. -/
def choosingMembers : List Spelling.Member :=
  [⟨"then", quoted "then", [quoted "none"]⟩,
    ⟨"note", quoted "note", [Token.mark '[', Token.mark ']']⟩,
    ⟨"cond", quoted "cond", [Token.mark '{', quoted "ident", Token.mark ':', quoted "\\u0078",
      Token.mark '}']⟩]

/-- A text for the block, with a line break before it. -/
def choosingText : String :=
  "\n\x7b\"suite\":[\x7b\"if\":\x7b\"then\":\"none\",\"note\":[],\"cond\":" ++
    "\x7b\"ident\":\"\\u0078\"\x7d\x7d\x7d]\x7d"

/-- The members are a way to write the record of the choice. -/
theorem spells_members :
    Spelling.object [.given "cond" (Tree.ident "x").spelling, .given "then" Tree.nil.spelling,
        ⟨"else", .null, true⟩] 124
      (Token.mark '{' :: commaSeparated (choosingMembers.map Spelling.Member.tokens) ++
        [Token.mark '}']) := by
  have hx : SpellsString "x" (quoted "\\u0078") :=
    ⟨_, .cons (.numbered (@SpellsUnits.cons 0x78 [] ['0', '0', '7', '8'] []
      ⟨0, 0, 7, 8, by decide, rfl⟩ .nil)) .nil, rfl⟩
  have htest : (Tree.ident "x").spelling 123 [Token.mark '{', quoted "ident", Token.mark ':',
      quoted "\\u0078", Token.mark '}'] :=
    ⟨_, [_], spellsString_quoted rfl, ⟨_, hx, rfl⟩, rfl⟩
  have hbranch : Tree.nil.spelling 123 [quoted "none"] :=
    Or.inl ⟨_, spellsString_quoted rfl, rfl⟩
  have hnote : IsValue [Token.mark '[', Token.mark ']'] := @IsValue.array [] (List.forall_mem_nil _)
  refine ⟨choosingMembers, ?spelled, ?unknown, ?value, by decide, by decide, rfl⟩
  case spelled =>
    simp only [choosingMembers, List.forall_mem_cons]
    exact ⟨spellsString_quoted rfl, spellsString_quoted rfl,
      spellsString_quoted rfl, List.forall_mem_nil _⟩
  case unknown =>
    simp only [choosingMembers, List.forall_mem_cons]
    exact ⟨fun h => absurd h (by decide), fun _ => hnote, fun h => absurd h (by decide),
      List.forall_mem_nil _⟩
  case value =>
    simp only [choosingMembers, List.forall_mem_cons]
    exact ⟨⟨nofun, nofun, fun _ => htest, List.forall_mem_nil _⟩,
      ⟨fun _ => hbranch, nofun, nofun, List.forall_mem_nil _⟩,
      ⟨nofun, nofun, nofun, List.forall_mem_nil _⟩, List.forall_mem_nil _⟩

end Tree

/-- The text is read as the block that it spells. -/
theorem Program.ofText_of_spells_choosing :
    Tree.choosing.Spells Tree.choosingText ∧ Tree.ofText Tree.choosingText = .ok .choosing ∧
      ofText Tree.choosingText = ofTree .choosing := by
  have hcond : (Tree.cond (.ident "x") .nil none).spelling 125 _ :=
    ⟨_, _, spellsString_quoted rfl, Or.inl Tree.spells_members, rfl⟩
  have htree : Tree.choosing.spelling Tree.maxOpen _ :=
    ⟨_, _, spellsString_quoted rfl, ⟨[_], .cons hcond .nil, rfl⟩, rfl⟩
  have hbreak : Blank ['\n'] := List.forall_mem_cons.mpr ⟨rfl, blank_nil⟩
  have hspells : Tree.choosing.Spells Tree.choosingText :=
    ⟨_, htree, .cons hbreak (spaced_flatten _)⟩
  exact ⟨hspells, ofText_of_spells hspells⟩

end TreeWalk
