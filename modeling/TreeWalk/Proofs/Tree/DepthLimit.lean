import TreeWalk.Proofs.Json.Depth
import TreeWalk.Proofs.Tree.Depth
import TreeWalk.Proofs.Tree.Spelling

/-!
# What was read is not too deep

`agreeWithin_reader` goes through the functions that read a tree and says for each that what it
takes opens no more containers than there is room for.  A node takes a container for its content,
and a content that is a record or a list takes another (`Fields.agreeWithin_read`).  The fields of a
record share the room that is left, for each container is closed before the next one is opened.

Nothing is said of the ways in which a tree may be written, for there is no need to tell them
apart: a record takes one container as an object or as an array, what is absent takes none, and a
value that means nothing is skipped and leaves the room as it is.

The bound of the reader's recursion is carried along in pairs of bounds and turns out not to matter.
So it is the containers that keep a tree from being too deep to be laid out.
-/

namespace TreeWalk

open Json (Reader AgreeWithin)

variable {bound : Nat} {tree tree' : Reader Tree} {fs : List Field}

/-! ## What a record opens -/

/-- The containers that are open at a time in what a field holds. -/
def FieldKind.opens : (kind : FieldKind) → kind.Value → Nat
  | .unaryOp, _ => 0
  | .binaryOp, _ => 0
  | .name, _ => 0
  | .tree, t => Tree.opens t
  | .treeOption, o => Tree.opensOption o
  | .nameListOption, names => Tree.opensNames names
  | .treeListOption, args => Tree.opensArgs args

/-- The containers that are open at a time inside a record. -/
def Fields.opens : (fs : List Field) → Fields fs → Nat
  | [], _ => 0
  | f :: fs, (v, vs) => max (f.kind.opens v) (opens fs vs)

/-- The containers that are open at a time in the fields that were seen. -/
def Slots.opens : (fs : List Field) → Slots fs → Nat
  | [], _ => 0
  | f :: fs, (slot, slots) => max (slot.elim 0 f.kind.opens) (opens fs slots)

theorem opens_of_absent? {kind : FieldKind} {v : kind.Value} (h : kind.absent? = some v) :
    kind.opens v = 0 := by
  cases kind <;> cases h <;> rfl

theorem Slots.opens_empty (fs : List Field) : Slots.opens fs (empty fs) = 0 := by
  induction fs with
  | nil => rfl
  | cons f fs ih =>
    rw [empty, opens, ih]
    rfl

theorem Slots.opens_complete {slots : Slots fs} {vs : Fields fs} (h : complete fs slots = .ok vs) :
    Fields.opens fs vs ≤ Slots.opens fs slots := by
  induction fs with
  | nil => exact Nat.zero_le _
  | cons f fs ih =>
    obtain ⟨slot, slots⟩ := slots
    rw [complete] at h
    split at h
    · cases h
    · next v hv =>
      split at h
      · cases h
      · next ws hws =>
        cases h
        have hrest := ih hws
        have hslot : f.kind.opens v ≤ slot.elim 0 f.kind.opens := by
          cases slot with
          | none => exact Nat.le_of_eq (opens_of_absent? hv)
          | some w =>
            cases hv
            exact Nat.le_refl _
        rw [Fields.opens, Slots.opens]
        omega

theorem Fields.opens_absent {expected : String} {position : Nat} {vs : Fields fs}
    (h : absent expected fs position = .ok vs) : Fields.opens fs vs = 0 := by
  induction fs generalizing position with
  | nil => rfl
  | cons f fs ih =>
    rw [absent] at h
    split at h
    · cases h
    · next v hv =>
      split at h
      · cases h
      · next ws hws =>
        cases h
        rw [opens, opens_of_absent? hv, ih hws]
        rfl

theorem Tree.opensList_le {room : Nat} {ts : List Tree} (h : ∀ t ∈ ts, t.opens ≤ room) :
    opensList ts ≤ room := by
  induction ts with
  | nil => exact Nat.zero_le _
  | cons t rest ih =>
    obtain ⟨ht, hrest⟩ := List.forall_mem_cons.mp h
    exact Nat.max_le.mpr ⟨ht, ih hrest⟩

/-! ## Readers of records -/

section Record

variable (h : AgreeWithin bound (fun room t => t.opens ≤ room) tree tree')
include h

theorem FieldKind.agreeWithin_read (kind : FieldKind) :
    AgreeWithin bound (fun room v => kind.opens v ≤ room) (kind.read tree) (kind.read tree') := by
  cases kind with
  | unaryOp => exact .refl (fun _ _ => Nat.zero_le _) _
  | binaryOp => exact .refl (fun _ _ => Nat.zero_le _) _
  | name => exact .refl (fun _ _ => Nat.zero_le _) _
  | tree => exact h
  | treeOption => exact h.optional (fun _ => Nat.zero_le _) fun _ _ ht => ht
  | nameListOption =>
    have hname : AgreeWithin bound (fun _ _ => True) Json.string Json.string :=
      .refl (fun _ _ => trivial) _
    have hnames : AgreeWithin (bound + 1) (fun room _ => 1 ≤ room) (Json.array Json.string)
        (Json.array Json.string) := hname.array fun room _ _ => Nat.le_add_left 1 room
    exact (hnames.mono (Nat.le_succ _)).optional (fun _ => Nat.zero_le _) fun _ _ hroom => hroom
  | treeListOption =>
    have hargs : AgreeWithin (bound + 1) (fun room ts => Tree.opensList ts + 1 ≤ room)
        (Json.array tree) (Json.array tree') :=
      h.array fun _ _ hts => Nat.succ_le_succ (Tree.opensList_le hts)
    exact (hargs.mono (Nat.le_succ _)).optional (fun _ => Nat.zero_le _) fun _ _ hroom => hroom

theorem Slots.agreeWithin_take (slots : Slots fs) (key : String) :
    AgreeWithin bound (fun room taken => opens fs slots ≤ room → opens fs taken ≤ room)
      (take tree fs slots key) (take tree' fs slots key) := by
  induction fs with
  | nil =>
    -- The key means nothing, and skipping its value enters no container.
    exact .after Json.colon fun _ => .after Json.skipValue fun _ => .pure fun _ hroom => hroom
  | cons f fs ih =>
    obtain ⟨slot, slots⟩ := slots
    rw [take, take]
    refine .ite (fun _ => .ite (fun _ => .fail _) fun _ => ?_) fun _ => ?_
    · refine .after Json.colon fun _ => (f.kind.agreeWithin_read h).map fun room v hv hroom => ?_
      obtain ⟨-, hslots⟩ := Nat.max_le.mp hroom
      exact Nat.max_le.mpr ⟨hv, hslots⟩
    · refine (ih slots).map fun room taken htaken hroom => ?_
      obtain ⟨hslot, hslots⟩ := Nat.max_le.mp hroom
      exact Nat.max_le.mpr ⟨hslot, htaken hslots⟩

theorem Fields.agreeWithin_objectItems (n : Nat) (first : Bool) (slots : Slots fs) :
    AgreeWithin bound (fun room vs => slots.opens fs ≤ room → opens fs vs ≤ room)
      (objectItems tree fs n first slots) (objectItems tree' fs n first slots) := by
  induction n generalizing first slots with
  | zero => exact .fail _
  | succ n ih =>
    unfold objectItems
    refine .after (Json.moreKeys first) fun more => ?_
    cases more with
    | true =>
      refine .after Json.stringBody fun key => (slots.agreeWithin_take h key).bind fun taken => ?_
      exact (ih false taken).imp fun room vs hvs htaken hroom => hvs (htaken hroom)
    | false =>
      cases hcomplete : slots.complete fs with
      | error e => exact .fail e
      | ok vs =>
        have hle := Slots.opens_complete hcomplete
        exact .after Json.objectEnd fun _ => .pure fun room hroom => Nat.le_trans hle hroom

theorem Fields.agreeWithin_arrayItems (expected : String) (fs : List Field) (position : Nat) :
    AgreeWithin bound (fun room vs => opens fs vs ≤ room) (arrayItems tree expected fs position)
      (arrayItems tree' expected fs position) := by
  induction fs generalizing position with
  | nil => exact .pure fun _ => Nat.zero_le _
  | cons f fs ih =>
    unfold arrayItems
    refine .after (Json.moreItems (position == 0)) fun more => ?_
    cases more with
    | true =>
      refine (f.kind.agreeWithin_read h).bind fun v => ?_
      exact (ih (position + 1)).map fun room vs hvs hv => Nat.max_le.mpr ⟨hv, hvs⟩
    | false =>
      cases habsent : absent expected (f :: fs) position with
      | error e => exact .fail e
      | ok vs => exact .pure fun room => opens_absent habsent ▸ Nat.zero_le room

/-- **A record takes a container for itself**, whether it is written as an object or as an array. -/
theorem Fields.agreeWithin_read (label : String) (fs : List Field) :
    AgreeWithin (bound + 1) (fun room vs => opens fs vs + 1 ≤ room) (read tree label fs)
      (read tree' label fs) := by
  intro room rounds text hroom
  unfold read
  dsimp only
  split
  · exact ⟨rfl, nofun⟩
  · next c rest _ =>
    by_cases hbrace : c = '{'
    · rw [if_pos hbrace, if_pos hbrace]
      refine AgreeWithin.entering (P := fun room vs => opens fs vs + 1 ≤ room) ?_ hroom
      refine (agreeWithin_objectItems h _ _ _).imp fun room vs hvs => Nat.succ_le_succ (hvs ?_)
      exact Slots.opens_empty fs ▸ Nat.zero_le room
    · rw [if_neg hbrace, if_neg hbrace]
      by_cases hbracket : c = '['
      · rw [if_pos hbracket, if_pos hbracket]
        refine AgreeWithin.entering (P := fun room vs => opens fs vs + 1 ≤ room) ?_ hroom
        exact (agreeWithin_arrayItems h _ fs 0).bind fun vs =>
          .after Json.arrayEnd fun _ => .pure fun _ => Nat.succ_le_succ
      · rw [if_neg hbracket, if_neg hbracket]
        exact ⟨rfl, fun vs left hvs => absurd hvs Json.unexpectedAt_ne_ok⟩

end Record

/-! ## Readers of trees -/

namespace Tree

/-- What a node opens besides its own container is opened by its content. -/
theorem agreeWithin_content (h : AgreeWithin bound (fun room t => t.opens ≤ room) tree tree')
    (tag : Tag) :
    AgreeWithin bound (fun room t => t.opens ≤ room + 1) (content tree tag)
      (content tree' tag) := by
  have hrecord := (Fields.agreeWithin_read h tag.label tag.fields).mono (Nat.le_succ _)
  have hoption : AgreeWithin bound (fun room o => opensOption o ≤ room) (Json.optional tree)
      (Json.optional tree') := h.optional (fun _ => Nat.zero_le _) fun _ _ ht => ht
  cases tag with
  | ident => exact .after Json.string fun _ => .pure fun room => Nat.le_add_left 1 room
  | int => exact .after Json.int64 fun _ => .pure fun room => Nat.le_add_left 1 room
  | float => exact .after Json.float64 fun _ => .pure fun room => Nat.le_add_left 1 room
  | nil => exact .after Json.null fun _ => .pure fun room => Nat.zero_le _
  | unary =>
    refine hrecord.bind fun ⟨op, operand, ()⟩ => .pure fun room hvs => ?_
    change max 0 (max operand.opens 0) + 1 ≤ room at hvs
    simp only [opens]
    omega
  | binary =>
    refine hrecord.bind fun ⟨op, left, right, ()⟩ => .pure fun room hvs => ?_
    change max 0 (max left.opens (max right.opens 0)) + 1 ≤ room at hvs
    simp only [opens]
    omega
  | assign =>
    refine hrecord.bind fun ⟨target, value, ()⟩ => .pure fun room hvs => ?_
    change max 0 (max value.opens 0) + 1 ≤ room at hvs
    simp only [opens]
    omega
  | print => exact hoption.map fun _ _ => Nat.succ_le_succ
  | cond =>
    refine hrecord.bind fun ⟨test, thenBranch, elseBranch, ()⟩ => .pure fun room hvs => ?_
    change max test.opens (max thenBranch.opens (max (opensOption elseBranch) 0)) + 1 ≤ room at hvs
    simp only [opens]
    omega
  | suite =>
    have hstatements : AgreeWithin (bound + 1) (fun room ts => opensList ts + 1 ≤ room)
        (Json.array tree) (Json.array tree') :=
      h.array fun _ _ hts => Nat.succ_le_succ (opensList_le hts)
    exact (hstatements.mono (Nat.le_succ _)).map fun _ _ => Nat.succ_le_succ
  | funcDef =>
    refine hrecord.bind fun ⟨name, params, body, ()⟩ => .pure fun room hvs => ?_
    change max 0 (max (opensNames params) (max body.opens 0)) + 1 ≤ room at hvs
    simp only [opens]
    omega
  | call =>
    refine hrecord.bind fun ⟨callee, args, ()⟩ => .pure fun room hvs => ?_
    change max 0 (max (opensArgs args) 0) + 1 ≤ room at hvs
    simp only [opens]
    omega
  | ret => exact hoption.map fun _ _ => Nat.succ_le_succ

/-- **The bound on its recursion makes no difference to the reader**, once it is not below the
number of containers that may be entered, and no more of them are needed for what it takes. -/
theorem agreeWithin_reader {levels levels' : Nat} (hle : bound ≤ levels) (hle' : bound ≤ levels') :
    AgreeWithin bound (fun room t => t.opens ≤ room) (reader levels) (reader levels') := by
  induction bound generalizing levels levels' with
  | zero => exact fun room _ _ hroom => absurd hroom (Nat.not_lt_zero room)
  | succ bound ih =>
    obtain ⟨levels, rfl⟩ := Nat.exists_eq_add_of_le' hle
    obtain ⟨levels', rfl⟩ := Nat.exists_eq_add_of_le' hle'
    have htree := ih (Nat.le_of_succ_le_succ hle) (Nat.le_of_succ_le_succ hle')
    refine .tagged (fun tag => ?_) (agreeWithin_content htree) fun _ _ ht => ht
    cases tag with
    | nil => exact .pure fun _ => Nat.zero_le _
    | _ => exact .fail _

/-- A text is read as the same tree, or refused for the same reason, whatever bounds the
recursion of the reader. -/
theorem whole_reader {levels : Nat} (hle : maxDepth ≤ levels) (text : String) :
    Json.whole (reader levels) maxDepth text = ofText text :=
  ((agreeWithin_reader (Nat.le_refl maxDepth) hle).whole (Nat.lt_succ_self maxOpen) text).1

/-- A tree that was read can be written down without too many containers. -/
theorem opens_le_maxOpen {text : String} {t : Tree} (h : ofText text = .ok t) :
    t.opens ≤ maxOpen :=
  have hle := Nat.le_refl maxDepth
  ((agreeWithin_reader hle hle).whole (Nat.lt_succ_self maxOpen) text).2 h

/-- A tree that was read does not nest too deeply. -/
theorem nesting_le_maxDepth {text : String} {t : Tree} (h : ofText text = .ok t) :
    t.nesting ≤ maxDepth :=
  Nat.le_trans t.nesting_le_opens (Nat.succ_le_succ (opens_le_maxOpen h))

end Tree

/-! ## A call with a note -/

namespace Tree

open Json

/-- A block with a call. -/
def noted : Tree := .suite [.call "f" none]

/-- Arrays inside one another. -/
def nestedArrays : Nat → List Token
  | 0 => [Token.null]
  | n + 1 => Token.mark '[' :: commaSeparated [nestedArrays n] ++ [Token.mark ']']

/-- The members of the call: one that means nothing, which nests, and the callee.  The arguments
are left out. -/
def notedMembers (n : Nat) : List Spelling.Member :=
  [⟨"note", quoted "note", nestedArrays n⟩, ⟨"callee", quoted "callee", [quoted "f"]⟩]

/-- The tokens of the call. -/
def notedCall (n : Nat) : List Token :=
  Token.mark '{' :: quoted "call" :: Token.mark ':' ::
    (Token.mark '{' :: commaSeparated ((notedMembers n).map Spelling.Member.tokens) ++
      [Token.mark '}']) ++ [Token.mark '}']

/-- The tokens of the block. -/
def notedTokens (n : Nat) : List Token :=
  Token.mark '{' :: quoted "suite" :: Token.mark ':' ::
    (Token.mark '[' :: commaSeparated [notedCall n] ++ [Token.mark ']']) ++ [Token.mark '}']

/-- A text for the block. -/
def notedText (n : Nat) : String := String.ofList (notedTokens n).flatten

theorem isValue_nestedArrays (n : Nat) : IsValue (nestedArrays n) := by
  induction n with
  | zero => exact .null
  | succ n ih => exact .array (List.forall_mem_singleton.mpr ih)

/-- The note does not count, however deep it nests. -/
theorem spells_noted (n : Nat) : noted.Spells (notedText n) := by
  have hmembers : Spelling.object [.given "callee" (.string "f"), ⟨"args", .null, true⟩] 124
      (Token.mark '{' :: commaSeparated ((notedMembers n).map Spelling.Member.tokens) ++
        [Token.mark '}']) := by
    have hkeys : (notedMembers n).map Spelling.Member.key = ["note", "callee"] := rfl
    refine ⟨notedMembers n, ?spelled, ?unknown, ?value, ?once, ?omitted, rfl⟩
    case spelled =>
      simp only [notedMembers, List.forall_mem_cons]
      exact ⟨spellsString_quoted rfl, spellsString_quoted rfl, List.forall_mem_nil _⟩
    case unknown =>
      simp only [notedMembers, List.forall_mem_cons]
      exact ⟨fun _ => isValue_nestedArrays n, fun h => absurd h (by decide), List.forall_mem_nil _⟩
    case value =>
      simp only [notedMembers, List.forall_mem_cons]
      exact ⟨⟨nofun, fun _ => ⟨_, spellsString_quoted rfl, rfl⟩, List.forall_mem_nil _⟩,
        ⟨nofun, nofun, List.forall_mem_nil _⟩, List.forall_mem_nil _⟩
    case once =>
      rw [hkeys]
      decide
    case omitted =>
      rw [hkeys]
      decide
  have hcall : (Tree.call "f" none).spelling 125 (notedCall n) :=
    ⟨_, _, spellsString_quoted rfl, Or.inl hmembers, rfl⟩
  have hblock : noted.spelling maxOpen (notedTokens n) :=
    ⟨_, _, spellsString_quoted rfl, ⟨[_], .cons hcall .nil, rfl⟩, rfl⟩
  refine ⟨_, hblock, ?_⟩
  rw [notedText, String.toList_ofList]
  exact spaced_flatten _

end Tree

/-! ## Programs -/

namespace Program

/-- **Whatever is loaded can be laid out.**  The text of a program, however it is written, was read
as a tree with at most 128 nodes on a path, so at most 128 of them are underway at a time while it
is laid out.  That a text may not nest its containers too deeply is all this rests on: a reader
with any larger bound on its recursion reads the same tree. -/
theorem lowering_depth {text : String} {p : Program} (h : ofText text = .ok p) :
    ∃ t, Tree.ofText text = .ok t ∧ ofTree t = .ok p ∧
      (∀ levels, Tree.maxDepth ≤ levels →
        Json.whole (Tree.reader levels) Tree.maxDepth text = .ok t) ∧
      (∀ path, t.IsPath path → path.length ≤ Tree.maxDepth) ∧
      ∀ l, t.lowerNested Tree.maxDepth l = some (t.lower l) := by
  rw [ofText] at h
  split at h
  · cases h
  · next t ht =>
    have hnesting := Tree.nesting_le_maxDepth ht
    refine ⟨t, ht, h, fun levels hle => ?_, fun path hpath => ?_, fun l => ?_⟩
    · rw [Tree.whole_reader hle, ht]
    · exact Nat.le_trans hpath.length_le hnesting
    · rw [Tree.lowerNested_eq, if_pos hnesting]

/-- A note of a thousand arrays inside one another is no hindrance. -/
theorem lowering_depth_noted :
    ∃ p, ofText (Tree.notedText 1000) = .ok p ∧ Tree.ofText (Tree.notedText 1000) = .ok .noted ∧
      (∀ path, Tree.noted.IsPath path → path.length ≤ Tree.maxDepth) ∧
      ∀ l, Tree.noted.lowerNested Tree.maxDepth l = some (Tree.noted.lower l) := by
  have hread := Tree.ofText_eq (Tree.spells_noted 1000)
  have hprogram : ofText (Tree.notedText 1000) = ofTree .noted := by rw [ofText, hread]
  obtain ⟨t, ht, -, -, hpath, hlower⟩ := lowering_depth hprogram
  cases hread.symm.trans ht
  exact ⟨_, hprogram, hread, hpath, hlower⟩

end Program

end TreeWalk
