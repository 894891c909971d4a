import MessageSchema.Proofs.Source.Lockstep

/-!
# Parse trees

What a parser makes of a source without knowing what its parts are for: a tree whose nodes are the
rules that were applied, each with the text it was applied to and the nodes inside. The readers of
trees follow the grammar rule by rule. A term has no node of its own, only those of the six kinds
of terms, and the content of a text is a node of its own inside the quotes.

Readers of trees go through a source as the readers of documents do, with the same attempts
(`Agree`), and `agree_document` says which trees they give: nothing but the shapes of `TermTree`,
`EntryTree`, `RowTree` and `SectionTree`.

- **Combinators** (`Agree.bind`, `Agree.orElse`, …): one lemma for each.
- **Tokens** (`agree_token`): the text of a node is what its rule was applied to.
- **Contents** (`splitText_eq`): a text is a content between quotes.
-/

namespace MessageSchema.Source

open Reader

/-- What a node stands for: a rule of the grammar, or the content of a text. -/
inductive Label where
  | rule (rule : Rule)
  | content
deriving DecidableEq, Repr

/-- A node with its text and the nodes inside. -/
inductive Tree where
  | node (label : Label) (text : String) (children : List Tree)

namespace Tree

/-- What a node stands for. -/
def label : Tree → Label
  | node label _ _ => label

/-- The text of a node. -/
def text : Tree → String
  | node _ text _ => text

/-- The nodes inside a node. -/
def children : Tree → List Tree
  | node _ _ children => children

end Tree

/-! ## Readers of trees -/

/-- Reads what `p` reads as the inside of a node. -/
def grouped (label : Label) (p : Reader (List Tree)) : Reader (List Tree) := fun c a =>
  match p c a with
  | (some (children, c'), a') =>
    (some ([.node label (String.ofList (c.rest.take (c'.offset - c.offset))) children], c'), a')
  | (none, a') => (none, a')

/-- Reads as a rule of the grammar and as the inside of its node. -/
def nodeOf (rule : Rule) (p : Reader (List Tree)) : Reader (List Tree) :=
  asRule rule (grouped (.rule rule) p)

/-- Reads a token, which has no nodes inside. -/
def token (p : Reader (List Char)) : Reader (List Tree) := do
  let _ ← p
  return []

/-- Splits off the content of a text: up to a quote, or a backslash with nothing behind it. -/
def splitContent : List Char → List Char × List Char
  | [] => ([], [])
  | '\\' :: c :: cs => onto ['\\', c] (splitContent cs)
  | '\\' :: [] => ([], ['\\'])
  | c :: cs => if c == '\x22' then ([], c :: cs) else onto [c] (splitContent cs)

/-- Reads an identifier. -/
def identifierTree : Reader (List Tree) :=
  nodeOf .identifier (token (lexeme splitIdentifier))

/-- Reads an absent cell. -/
def absentTree : Reader (List Tree) :=
  nodeOf .absent
    (token (firstOf [lexeme (splitWord "none".toList), lexeme (splitWord "_".toList)]))

/-- Reads a truth value. -/
def boolTree : Reader (List Tree) :=
  nodeOf .boolean
    (token (firstOf [lexeme (splitWord "true".toList), lexeme (splitWord "false".toList)]))

/-- Reads an integer. -/
def integerTree : Reader (List Tree) :=
  nodeOf .integer (token (lexeme splitInteger))

/-- Reads the content of a text. -/
def contentTree : Reader (List Tree) :=
  grouped .content (token (lexeme fun s => some (splitContent s)))

/-- Reads a text. -/
def textTree : Reader (List Tree) :=
  nodeOf .text do
    exact "\x22"
    let content ← contentTree
    exact "\x22"
    return content

/-- Reads items with commas between them. -/
def itemTrees (item : Reader (List Tree)) (limit : Nat) : Reader (List Tree) := do
  return (← commaSeparated item limit).flatten

/-- Reads the items of a list or of a tuple between its brackets. -/
def bracketTree (rule : Rule) (left right : String) (term : Reader (List Tree)) (limit : Nat) :
    Reader (List Tree) :=
  nodeOf rule (enclosed left right (orElse (itemTrees term limit) (pure [])))

/-- Reads a term, which is a node of one of six rules. -/
def termTree : (limit : Nat) → Reader (List Tree)
  | 0 => fail
  | limit + 1 =>
    firstOf [absentTree, boolTree, integerTree, textTree,
      bracketTree .list "[" "]" (termTree limit) limit,
      bracketTree .tuple "(" ")" (termTree limit) limit]

/-- Reads an entry of an options section. -/
def entryTree (limit : Nat) : Reader (List Tree) :=
  nodeOf .option do
    let key ← identifierTree
    gap
    exact "="
    gap
    let value ← termTree limit
    gap
    exact ";"
    return key ++ value

/-- Reads an options section. -/
def optionsTree (limit : Nat) : Reader (List Tree) :=
  nodeOf .optionsSection do
    exact "options"
    gap
    let entries ← enclosed "\x7b" "\x7d" (many gap (entryTree limit) limit)
    return entries.flatten

/-- Reads the columns of a table. -/
def columnsTree (limit : Nat) : Reader (List Tree) :=
  nodeOf .columns (enclosed "(" ")" (itemTrees identifierTree limit))

/-- Reads a table section. -/
def tableTree (limit : Nat) : Reader (List Tree) :=
  nodeOf .tableSection do
    exact "table"
    gap
    let columns ← columnsTree limit
    gap
    let rows ← enclosed "\x7b" "\x7d"
      (orElse (itemTrees (bracketTree .tuple "(" ")" (termTree limit) limit) limit) (pure []))
    return columns ++ rows

/-- Reads the end of the source. -/
def endTree : Reader (List Tree) :=
  nodeOf .endOfInput fun c a => (if c.rest.isEmpty then some ([], c) else none, a)

/-- Reads a whole source. -/
def documentTree (limit : Nat) : Reader (List Tree) :=
  nodeOf .schema do
    gap
    let sections ← many gap (firstOf [optionsTree limit, tableTree limit]) limit
    gap
    let finish ← endTree
    return sections.flatten ++ finish

/-! ## Shapes of trees -/

/-- The tree of a term. -/
inductive TermTree : Tree → Term → Prop
  | absent {text : String} : TermTree (.node (.rule .absent) text []) .absent
  | bool {text : String} : TermTree (.node (.rule .boolean) text []) (.bool (text == "true"))
  | integer {text : String} {n : Int} :
    SpellsInteger text.toList n → TermTree (.node (.rule .integer) text []) (.integer text)
  | text {text content : String} {value : List Char} :
    SpellsText content.toList value →
      TermTree (.node (.rule .text) text [.node .content content []]) (.text content)
  | list {text : String} {trees : List Tree} {items : List Term} :
    List.Forall₂ TermTree trees items → TermTree (.node (.rule .list) text trees) (.list items)
  | tuple {text : String} {trees : List Tree} {items : List Term} :
    List.Forall₂ TermTree trees items → TermTree (.node (.rule .tuple) text trees) (.tuple items)

/-- The tree of an identifier. -/
inductive NameTree : Tree → String → Prop
  | name {text : String} : NameTree (.node (.rule .identifier) text []) text

/-- The tree of a row. -/
inductive RowTree : Tree → List Term → Prop
  | row {text : String} {trees : List Tree} {items : List Term} :
    List.Forall₂ TermTree trees items → RowTree (.node (.rule .tuple) text trees) items

/-- The tree of an entry of an options section. -/
inductive EntryTree : Tree → String × Term → Prop
  | entry {text name : String} {key value : Tree} {term : Term} :
    NameTree key name → TermTree value term →
      EntryTree (.node (.rule .option) text [key, value]) (name, term)

/-- The tree of a section. -/
inductive SectionTree : Tree → Section → Prop
  | options {text : String} {trees : List Tree} {entries : List (String × Term)} :
    List.Forall₂ EntryTree trees entries →
      SectionTree (.node (.rule .optionsSection) text trees) (.options entries)
  | table {text columnsText : String} {columns rows : List Tree} {names : List String}
    {terms : List (List Term)} :
    List.Forall₂ NameTree columns names → List.Forall₂ RowTree rows terms →
      SectionTree (.node (.rule .tableSection) text
        (.node (.rule .columns) columnsText columns :: rows)) (.table names terms)

/-- The node of the end of a source. -/
def endNode (text : String) : Tree :=
  .node (.rule .endOfInput) text []

/-- The tree of a document. -/
inductive DocumentTree : Tree → Document → Prop
  | document {text endText : String} {trees : List Tree} {sections : List Section} :
    List.Forall₂ SectionTree trees sections →
      DocumentTree (.node (.rule .schema) text (trees ++ [endNode endText])) sections

section Nodes

variable {β : Type} {R : Tree → β → Prop} {p : Reader (List Tree)} {q : Reader β}

/-- A single tree that is related. -/
def One (R : Tree → β → Prop) (trees : List Tree) (y : β) : Prop :=
  ∃ tree, trees = [tree] ∧ R tree y

theorem forall₂_flatten {trees : List (List Tree)} {ys : List β}
    (h : List.Forall₂ (One R) trees ys) : List.Forall₂ R trees.flatten ys := by
  induction h with
  | nil => exact .nil
  | cons h _ ih =>
    obtain ⟨tree, rfl, htree⟩ := h
    exact .cons htree ih

theorem Agree.grouped {R : List Tree → β → Prop} (h : Agree R p q) (label : Label) :
    Agree (One fun tree y => ∃ text children, tree = .node label text children ∧ R children y)
      (grouped label p) q := by
  intro c a
  rcases h c a with ⟨a', hp, hq⟩ | ⟨x, y, c', a', hxy, hp, hq⟩
  · simp only [Source.grouped, hp]
    exact .inl ⟨a', rfl, hq⟩
  · simp only [Source.grouped, hp]
    exact .inr ⟨_, y, c', a', ⟨_, rfl, _, x, rfl, hxy⟩, rfl, hq⟩

/-- What is read inside a rule becomes the inside of its node. -/
theorem Agree.nodeOf {R : List Tree → β → Prop} {S : Tree → β → Prop} (h : Agree R p q)
    (rule : Rule) (hS : ∀ text children y, R children y → S (.node (.rule rule) text children) y) :
    Agree (One S) (nodeOf rule p) (Reader.asRule rule q) := by
  refine ((h.grouped (.rule rule)).mono ?_).asRule rule
  rintro trees y ⟨tree, rfl, text, children, rfl, hxy⟩
  exact ⟨_, rfl, hS text children y hxy⟩

theorem agree_itemTrees (h : Agree (One R) p q) (limit : Nat) :
    Agree (List.Forall₂ R) (itemTrees p limit) (commaSeparated q limit) :=
  (agree_commaSeparated h limit).mapLeft fun _ _ => forall₂_flatten

/-- Nodes in brackets, or none. -/
theorem agree_bracketItems (h : Agree (One R) p q) (left right : String) (limit : Nat) :
    Agree (List.Forall₂ R) (enclosed left right (orElse (itemTrees p limit) (pure [])))
      (enclosed left right (orElse (commaSeparated q limit) (pure []))) :=
  ((agree_itemTrees h limit).orElse (.pure .nil)).enclosed left right

end Nodes

section Tokens

variable {p : Reader (List Char)}

/-- A reader that gives the characters it goes past. -/
def Spans (p : Reader (List Char)) : Prop :=
  ∀ c a x c' a', p c a = (some (x, c'), a') →
    c.rest = x ++ c'.rest ∧ c'.offset = c.offset + x.length

theorem spans_lexeme {split : List Char → Option (List Char × List Char)}
    (h : ∀ s x rest, split s = some (x, rest) → s = x ++ rest) : Spans (lexeme split) := by
  intro c a x c' a' hread
  simp only [lexeme] at hread
  split at hread
  · rename_i hsplit
    cases hread
    exact ⟨h _ _ _ hsplit, rfl⟩
  · cases hread

theorem spans_firstOf {ps : List (Reader (List Char))} (h : ∀ p ∈ ps, Spans p) :
    Spans (firstOf ps) := by
  induction ps with
  | nil =>
    intro c a x c' a' hread
    cases hread
  | cons p ps ih =>
    obtain ⟨hp, hps⟩ := List.forall_mem_cons.mp h
    intro c a x c' a' hread
    simp only [firstOf, Reader.orElse] at hread
    split at hread
    · rename_i hfirst
      cases hread
      exact hp c a x c' _ hfirst
    · exact ih hps c _ x c' a' hread

/-- The node of a token has the token for its text. -/
theorem agree_token (h : Spans p) (label : Label) :
    Agree (fun trees x => trees = [.node label (String.ofList x) []]) (grouped label (token p))
      p := by
  intro c a
  rcases hp : p c a with ⟨_ | ⟨x, c'⟩, a'⟩
  · refine .inl ⟨a', ?_, rfl⟩
    simp only [grouped, token, bind_eq_of_none hp]
  · obtain ⟨hrest, hoffset⟩ := h c a x c' a' hp
    refine .inr ⟨_, x, c', a', rfl, ?_, rfl⟩
    have hinside : token p c a = (some ([], c'), a') := bind_eq_of_some hp
    have htext : c.rest.take (c'.offset - c.offset) = x := by
      rw [hrest, hoffset, Nat.add_sub_cancel_left, List.take_left]
    simp only [grouped, hinside, htext]

theorem spans_words (word other : String) :
    Spans (firstOf [lexeme (splitWord word.toList), lexeme (splitWord other.toList)]) := by
  refine spans_firstOf ?_
  simp only [List.forall_mem_cons, List.not_mem_nil, false_imp_iff, implies_true, and_true]
  exact ⟨spans_lexeme fun _ _ _ h => (append_of_splitWord h).2,
    spans_lexeme fun _ _ _ h => (append_of_splitWord h).2⟩

theorem agree_identifier : Agree (One NameTree) identifierTree identifier := by
  have hspans : Spans (lexeme splitIdentifier) :=
    spans_lexeme fun _ _ _ h => (isIdentifierChars_of_splitIdentifier h).2
  refine ((agree_token hspans (.rule .identifier)).mapRight ?_).asRule .identifier
  rintro _ x rfl
  exact ⟨_, rfl, .name⟩

theorem agree_absent : Agree (One TermTree) absentTree absentTerm := by
  refine ((agree_token (spans_words "none" "_") (.rule .absent)).mapRight ?_).asRule .absent
  rintro _ x rfl
  exact ⟨_, rfl, .absent⟩

theorem agree_bool : Agree (One TermTree) boolTree boolTerm := by
  refine ((agree_token (spans_words "true" "false") (.rule .boolean)).mapRight ?_).asRule .boolean
  rintro _ x rfl
  have hword : (x == "true".toList) = (String.ofList x == "true") := by
    rw [Bool.eq_iff_iff, beq_iff_eq, beq_iff_eq, ← String.toList_inj]
    simp only [String.toList_ofList]
  rw [hword]
  exact ⟨_, rfl, .bool⟩

theorem agree_integer : Agree (One TermTree) integerTree integerTerm := by
  have hspans : Spans (lexeme splitInteger) :=
    spans_lexeme fun _ _ _ h => (spellsInteger_of_splitInteger h).2
  refine ((agree_token hspans (.rule .integer)).gives.mapRight ?_).asRule .integer
  rintro _ x ⟨rfl, s, rest, hread⟩
  obtain ⟨⟨n, hn⟩, -⟩ := spellsInteger_of_splitInteger hread.of_lexeme
  exact ⟨_, rfl, .integer (n := n) (by rwa [String.toList_ofList])⟩

end Tokens

/-! ## Contents of texts -/

theorem append_splitContent (s : List Char) : s = (splitContent s).1 ++ (splitContent s).2 := by
  fun_induction splitContent s with
  | case1 => rfl
  | case2 c cs ih => exact congrArg ('\\' :: c :: ·) ih
  | case3 => rfl
  | case4 => rfl
  | case5 c cs _ _ _ ih => exact congrArg (c :: ·) ih

/-- A content with the quote behind it, if there is one. -/
def closed? : List Char × List Char → Option (List Char × List Char)
  | (content, '\x22' :: rest) => some (content ++ ['\x22'], rest)
  | _ => none

theorem closed?_onto (cs : List Char) (split : List Char × List Char) :
    closed? (onto cs split) = (closed? split).map (onto cs) := by
  rcases split with ⟨content, _ | ⟨d, rest⟩⟩
  · rfl
  · by_cases hd : d = '\x22'
    · subst hd
      simp [closed?, onto]
    · simp [closed?, onto, hd]

/-- The content of a text goes up to the quote that ends the text. -/
theorem splitQuoted_eq (s : List Char) : splitQuoted s = closed? (splitContent s) := by
  fun_induction splitQuoted s with
  | case1 => rfl
  | case2 => rfl
  | case3 c cs ih => rw [ih, splitContent, closed?_onto]
  | case4 => rfl
  | case5 c cs hquote hpair hlone ih =>
    have hc : (c == '\x22') = false := by simpa using hquote
    rw [ih, splitContent.eq_4 c cs hpair hlone, hc, if_neg Bool.false_ne_true, closed?_onto]

/-- Reads the content of a text between its quotes. -/
def quotedContent : Reader (List Char) := do
  exact "\x22"
  let content ← lexeme fun s => some (splitContent s)
  exact "\x22"
  return '\x22' :: (content ++ ['\x22'])

theorem exact_eq (expected : String) (c : Cursor) (a : Attempts) :
    exact expected c a = match splitExact expected.toList c.rest with
      | some (read, rest) => (some ((), ⟨c.offset + read.length, rest⟩), a)
      | none => (none, a) := by
  simp only [exact, Bind.bind, lexeme]
  rcases splitExact expected.toList c.rest with _ | ⟨read, rest⟩ <;> rfl

theorem splitExact_quote (s : List Char) :
    splitExact "\x22".toList s = match s with
      | '\x22' :: cs => some (['\x22'], cs)
      | _ => none := by
  rcases s with _ | ⟨c, cs⟩
  · rfl
  · by_cases hc : c = '\x22'
    · subst hc
      rfl
    · have hprefix : ¬ "\x22".toList <+: c :: cs := by simpa using Ne.symm hc
      rw [splitExact_eq_none hprefix]
      simp [hc]

/-- A text is read as its content between quotes. -/
theorem lexeme_splitText : lexeme splitText = quotedContent := by
  funext ⟨offset, s⟩ a
  simp only [quotedContent, Bind.bind, exact_eq, splitExact_quote, lexeme, splitText]
  rcases s with _ | ⟨c, cs⟩
  · rfl
  by_cases hc : c = '\x22'
  · subst hc
    simp only [splitQuoted_eq]
    rcases splitContent cs with ⟨content, _ | ⟨d, rest⟩⟩
    · rfl
    · by_cases hd : d = '\x22'
      · subst hd
        simp only [closed?, Option.map_some, onto, List.length_append, List.length_singleton]
        have hoffset : offset + (1 + (content.length + 1)) = offset + 1 + content.length + 1 := by
          omega
        rw [hoffset]
        rfl
      · simp [closed?, hd]
  · simp [hc]

theorem agree_content :
    Agree (fun trees x => trees = [.node .content (String.ofList x) []]) contentTree
      (lexeme fun s => some (splitContent s)) := by
  refine agree_token (spans_lexeme fun s x rest h => ?_) .content
  obtain ⟨rfl, rfl⟩ := Prod.mk.inj (Option.some.inj h)
  exact append_splitContent s

theorem agree_text : Agree (One TermTree) textTree textTerm := by
  have hquoted : Agree (fun trees quoted => ∃ content : List Char,
      trees = [.node .content (String.ofList content) []] ∧
        quoted = '\x22' :: (content ++ ['\x22'])) (do
          exact "\x22"
          let content ← contentTree
          exact "\x22"
          return content) (lexeme splitText) := by
    rw [lexeme_splitText]
    refine .behind fun _ => agree_content.bind fun trees content htrees => .behind fun _ => .pure ?_
    exact ⟨content, htrees, rfl⟩
  refine (hquoted.gives.mapRight (l := fun quoted =>
    Term.text (String.ofList (quoted.drop 1).dropLast)) (S := fun trees term => ∃ content,
      trees = [.node .content content []] ∧ ∃ value, SpellsText content.toList value ∧
        term = .text content) ?_).nodeOf .text ?_
  · -- the quotes belong to the token but not to the content
    rintro _ _ ⟨⟨content, rfl, rfl⟩, s, rest, hread⟩
    obtain ⟨body, value, hbody, hvalue, -⟩ := spellsText_of_splitText hread.of_lexeme
    obtain rfl : content = body := by simpa using hbody
    refine ⟨_, rfl, value, by rwa [String.toList_ofList], ?_⟩
    simp
  · rintro text _ _ ⟨content, rfl, value, hvalue, rfl⟩
    exact .text hvalue

section Terms

variable {p : Reader (List Tree)} {q : Reader Term} {limit : Nat}

theorem agree_bracket (h : Agree (One TermTree) p q) (rule : Rule) (left right : String)
    (limit : Nat) :
    Agree (One fun tree items => ∃ text trees, tree = .node (.rule rule) text trees ∧
      List.Forall₂ TermTree trees items)
      (bracketTree rule left right p limit) (termItems rule left right q limit) :=
  (agree_bracketItems h left right limit).nodeOf rule fun text trees _ hitems =>
    ⟨text, trees, rfl, hitems⟩

/-- The tree of a term stands for the term that is read. -/
theorem agree_term (limit : Nat) : Agree (One TermTree) (termTree limit) (term limit) := by
  induction limit with
  | zero => exact agree_fail
  | succ limit ih =>
    refine agree_firstOf (.cons agree_absent (.cons agree_bool (.cons agree_integer
      (.cons agree_text (.cons ?list (.cons ?tuple .nil))))))
    case list =>
      refine (agree_bracket ih .list "[" "]" limit).mapRight ?_
      rintro _ items ⟨_, rfl, text, trees, rfl, hitems⟩
      exact ⟨_, rfl, .list hitems⟩
    case tuple =>
      refine (agree_bracket ih .tuple "(" ")" limit).mapRight ?_
      rintro _ items ⟨_, rfl, text, trees, rfl, hitems⟩
      exact ⟨_, rfl, .tuple hitems⟩

theorem agree_row (limit : Nat) :
    Agree (One RowTree) (bracketTree .tuple "(" ")" (termTree limit) limit) (row limit) := by
  refine (agree_bracket (agree_term limit) .tuple "(" ")" limit).mono ?_
  rintro _ items ⟨_, rfl, text, trees, rfl, hitems⟩
  exact ⟨_, rfl, .row hitems⟩

end Terms

section Sections

variable (limit : Nat)

/-- The tree of an option stands for the option. -/
theorem agree_entry : Agree (One EntryTree) (entryTree limit) (optionEntry limit) := by
  refine Agree.nodeOf (R := fun trees entry => ∃ key value, trees = [key, value] ∧
    NameTree key entry.1 ∧ TermTree value entry.2) ?inside .option ?node
  case inside =>
    refine agree_identifier.bind fun _ name hname => .behind fun _ => .behind fun _ =>
      .behind fun _ => (agree_term limit).bind fun _ term hterm => .behind fun _ =>
      .behind fun _ => .pure ?_
    obtain ⟨key, rfl, hkey⟩ := hname
    obtain ⟨value, rfl, hvalue⟩ := hterm
    exact ⟨key, value, rfl, hkey, hvalue⟩
  case node =>
    rintro text _ ⟨name, term⟩ ⟨key, value, rfl, hkey, hvalue⟩
    exact .entry hkey hvalue

theorem agree_optionsSection :
    Agree (One SectionTree) (optionsTree limit) (optionsSection limit) := by
  refine Agree.nodeOf (R := fun trees part => ∃ entries,
    List.Forall₂ EntryTree trees entries ∧ part = .options entries) ?inside .optionsSection ?node
  case inside =>
    exact .behind fun _ => .behind fun _ =>
      ((agree_many (agree_entry limit) limit).enclosed "\x7b" "\x7d").bind fun _ entries h =>
        .pure ⟨entries, forall₂_flatten h, rfl⟩
  case node =>
    rintro text trees _ ⟨entries, htrees, rfl⟩
    exact .options htrees

theorem agree_columns :
    Agree (One fun tree names => ∃ text columns, tree = .node (.rule .columns) text columns ∧
      List.Forall₂ NameTree columns names) (columnsTree limit) (columns limit) :=
  ((agree_itemTrees agree_identifier limit).enclosed "(" ")").nodeOf .columns
    fun text columns _ hnames => ⟨text, columns, rfl, hnames⟩

theorem agree_tableSection : Agree (One SectionTree) (tableTree limit) (tableSection limit) := by
  refine Agree.nodeOf (R := fun trees part => ∃ text columns rows names terms,
    trees = .node (.rule .columns) text columns :: rows ∧ List.Forall₂ NameTree columns names ∧
      List.Forall₂ RowTree rows terms ∧ part = .table names terms) ?inside .tableSection ?node
  case inside =>
    refine .behind fun _ => .behind fun _ => (agree_columns limit).bind fun _ names hnames =>
      .behind fun _ =>
      (agree_bracketItems (agree_row limit) "\x7b" "\x7d" limit).bind fun rows terms hrows =>
      .pure ?_
    obtain ⟨_, rfl, text, columns, rfl, hcolumns⟩ := hnames
    exact ⟨text, columns, rows, names, terms, rfl, hcolumns, hrows, rfl⟩
  case node =>
    rintro text _ _ ⟨_, _, _, _, _, rfl, hcolumns, hrows, rfl⟩
    exact .table hcolumns hrows

/-! ## Documents -/

theorem agree_endOfInput :
    Agree (One fun tree _ => ∃ text, tree = endNode text) endTree endOfInput := by
  refine Agree.nodeOf (R := fun trees _ => trees = []) ?inside .endOfInput ?node
  case inside =>
    intro c a
    by_cases hrest : c.rest.isEmpty = true
    · exact .inr ⟨[], (), c, a, rfl, by simp [hrest], by simp [hrest]⟩
    · exact .inl ⟨a, by simp [hrest], by simp [hrest]⟩
  case node =>
    rintro text _ _ rfl
    exact ⟨text, rfl⟩

/-- Reading a tree of a source goes as reading a document does, and it is a tree of the
document. -/
theorem agree_document : Agree (One DocumentTree) (documentTree limit) (document limit) := by
  have hsection : Agree (One SectionTree) (firstOf [optionsTree limit, tableTree limit])
      (firstOf [optionsSection limit, tableSection limit]) :=
    agree_firstOf (.cons (agree_optionsSection limit) (.cons (agree_tableSection limit) .nil))
  refine Agree.nodeOf (R := fun trees sections => ∃ parts text,
    trees = parts ++ [endNode text] ∧ List.Forall₂ SectionTree parts sections)
    ?inside .schema ?node
  case inside =>
    refine .behind fun _ => (agree_many hsection limit).bind fun parts sections hparts =>
      .behind fun _ => agree_endOfInput.bind fun _ _ hfinish => .pure ?_
    obtain ⟨_, rfl, text, rfl⟩ := hfinish
    exact ⟨parts.flatten, text, rfl, forall₂_flatten hparts⟩
  case node =>
    rintro text _ sections ⟨parts, finish, rfl, hparts⟩
    exact .document hparts

end Sections

end MessageSchema.Source
