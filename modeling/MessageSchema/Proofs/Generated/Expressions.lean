import MessageSchema.Generated.Function
import MessageSchema.Proofs.Text.Trimming

/-!
# Reading size expressions

The text of a size expression is read as C reads it: the characters make tokens, and the operators
among the tokens group by precedence and to the left (`SizeExpr.read?`). Main statement:
`read?_render`.

- **Tokens** (`tokensBehind`): names go on up to a blank or a punctuation character. What stands in
  parentheses right behind a name is a type, if the name is `sizeof`, or the arguments of a call.
- **Operators** (`readOperand`, `readOperator`): in front of an operand the left operands of the
  operators before it are waiting, in each group around it (`Waiting`); behind it the next token
  says which of them have got their right operands.
- **Texts** (`SizeExpr.IsGrouped`, `SizeExpr.IsLegible`): what the emitter has to see to, that
  parentheses stand where the operators need them and that names can be told from what is around
  them.
-/

namespace MessageSchema.Generated

open Text

/-- A token of an expression. The parentheses behind a name belong to the token of the name. -/
inductive SizeToken where
  | operand (x : SizeExpr)
  | plus
  | times
  | opening
  | closing
deriving DecidableEq, Repr

/-- The characters of names: all but blank ones and the punctuation of expressions. -/
def isNameChar (c : Char) : Bool :=
  !isBlank c && !(['(', ')', '+', '*', ','].contains c)

/-- Whether a text is one name. -/
def isName (s : List Char) : Bool :=
  !s.isEmpty && s.all isNameChar

/-- The name that a text is, but for blank space around it. -/
def nameOf? (s : List Char) : Option String :=
  if isName (trim s) then some (String.ofList (trim s)) else none

/-- The names that commas separate in a text. -/
def namesOf? (s : List Char) : Option (List String) :=
  if s.isEmpty then some [] else (s.splitOn ',').mapM nameOf?

/-- The operand that a name makes with the text in the parentheses behind it. -/
def applied? (name inner : List Char) : Option SizeExpr :=
  if name = "sizeof".toList then some (.sizeof (String.ofList inner))
  else (namesOf? inner).map (.call (String.ofList name))

/-- The tokens of a name without parentheses behind it. -/
def nameTokens (name : List Char) : List SizeToken :=
  if name.isEmpty then [] else [.operand (.parameter (String.ofList name))]

/-- The tokens of a character outside names. -/
def punctuation? (c : Char) : Option (List SizeToken) :=
  if isBlank c then some []
  else if c = '+' then some [.plus]
  else if c = '*' then some [.times]
  else if c = '(' then some [.opening]
  else if c = ')' then some [.closing]
  else none

mutual

/-- The tokens of a text behind the beginning of a name, or behind something else if that is
empty. -/
def tokensBehind (name : List Char) : List Char → Option (List SizeToken)
  | [] => some (nameTokens name)
  | c :: cs =>
    if isNameChar c then tokensBehind (name ++ [c]) cs
    else if c = '(' ∧ name ≠ [] then tokensInside name [] cs
    else do return nameTokens name ++ (← punctuation? c) ++ (← tokensBehind [] cs)

/-- The tokens of a text behind a name, the parenthesis and the beginning of what stands in it. -/
def tokensInside (name inner : List Char) : List Char → Option (List SizeToken)
  | [] => none
  | c :: cs =>
    if c = ')' then do return .operand (← applied? name inner) :: (← tokensBehind [] cs)
    else tokensInside name (inner ++ [c]) cs

end

/-- The operands that wait for what stands to the right of their operators. -/
@[ext]
structure Waiting where
  sum? : Option SizeExpr := none
  product? : Option SizeExpr := none

namespace Waiting

/-- The product that ends with an operand. -/
def product (w : Waiting) (x : SizeExpr) : SizeExpr :=
  match w.product? with
  | none => x
  | some left => .product left x

/-- The sum that ends with an operand. -/
def sum (w : Waiting) (x : SizeExpr) : SizeExpr :=
  match w.sum? with
  | none => w.product x
  | some left => .sum left (w.product x)

end Waiting

mutual

/-- Reads tokens where an operand is due, inside groups around which the operands `outer` wait. -/
def readOperand (w : Waiting) (outer : List Waiting) : List SizeToken → Option SizeExpr
  | .operand x :: rest => readOperator w outer x rest
  | .opening :: rest => readOperand {} (w :: outer) rest
  | _ => none

/-- Reads tokens behind the operand `x`. -/
def readOperator (w : Waiting) (outer : List Waiting) (x : SizeExpr) :
    List SizeToken → Option SizeExpr
  | [] => if outer.isEmpty then some (w.sum x) else none
  | .times :: rest => readOperand { w with product? := some (w.product x) } outer rest
  | .plus :: rest => readOperand { sum? := some (w.sum x) } outer rest
  | .closing :: rest =>
    match outer with
    | [] => none
    | before :: outer => readOperator before outer (.group (w.sum x)) rest
  | _ => none

end

namespace SizeExpr

/-- The expression that a text is. -/
def read? (text : String) : Option SizeExpr := do
  readOperand {} [] (← tokensBehind [] text.toList)

/-! ## Texts -/

/-- How tightly the operator of an expression binds. -/
def level : SizeExpr → Nat
  | .sum _ _ => 0
  | .product _ _ => 1
  | .sizeof _ | .parameter _ | .group _ | .call _ _ => 2

/-- The text of an expression has its operands where its operators look for them; both operators
group to the left. -/
def IsGrouped : SizeExpr → Prop
  | .sum left right => left.IsGrouped ∧ right.IsGrouped ∧ 1 ≤ right.level
  | .product left right => left.IsGrouped ∧ right.IsGrouped ∧ 1 ≤ left.level ∧ 2 ≤ right.level
  | .group inner => inner.IsGrouped
  | .sizeof _ | .parameter _ | .call _ _ => True

/-- The names in the text of an expression end where something else begins. -/
def IsLegible : SizeExpr → Prop
  | .sizeof type => ')' ∉ type.toList
  | .parameter name => isName name.toList = true
  | .sum left right | .product left right => left.IsLegible ∧ right.IsLegible
  | .group inner => inner.IsLegible
  | .call function arguments => isName function.toList = true ∧ function ≠ "sizeof" ∧
    ∀ a ∈ arguments, isName a.toList = true

/-- The tokens of an expression. -/
def tokens : SizeExpr → List SizeToken
  | .sum left right => left.tokens ++ .plus :: right.tokens
  | .product left right => left.tokens ++ .times :: right.tokens
  | .group inner => .opening :: inner.tokens ++ [.closing]
  | x => [.operand x]

end SizeExpr

section Texts

variable {name inner s rest : List Char} {x : SizeExpr}

/-- A name goes on with the characters of names. -/
theorem tokensBehind_append (hs : ∀ c ∈ s, isNameChar c = true) :
    tokensBehind name (s ++ rest) = tokensBehind (name ++ s) rest := by
  induction s generalizing name with
  | nil => rw [List.nil_append, List.append_nil]
  | cons c s ih =>
    obtain ⟨hc, hs⟩ := List.forall_mem_cons.mp hs
    rw [List.cons_append, tokensBehind, if_pos hc, ih hs, List.append_assoc, List.singleton_append]

/-- A name ends in front of a character that is not of a name, if that is no parenthesis. -/
theorem tokensBehind_name (hrest : ∀ c ∈ rest.head?, isNameChar c = false ∧ c ≠ '(') :
    tokensBehind name rest = (tokensBehind [] rest).map (nameTokens name ++ ·) := by
  cases rest with
  | nil => simp [tokensBehind, nameTokens]
  | cons c rest =>
    obtain ⟨hc, hparenthesis⟩ := hrest c rfl
    cases hpunctuation : punctuation? c <;> cases hbehind : tokensBehind [] rest <;>
      simp [tokensBehind, hc, hparenthesis, hpunctuation, hbehind, nameTokens]

/-- The parentheses behind a name end with the first that closes. -/
theorem tokensInside_append (hs : ')' ∉ s) :
    tokensInside name inner (s ++ ')' :: rest) = (do
      return .operand (← applied? name (inner ++ s)) :: (← tokensBehind [] rest)) := by
  induction s generalizing inner with
  | nil => rw [List.nil_append, tokensInside, if_pos rfl, List.append_nil]
  | cons c s ih =>
    obtain ⟨hc, hs⟩ := not_or.mp (List.mem_cons.not.mp hs)
    rw [List.cons_append, tokensInside, if_neg (Ne.symm hc), ih hs, List.append_assoc,
      List.singleton_append]

/-- A text of name characters only is a name. -/
theorem isName_of_forall (hne : s ≠ []) (h : ∀ c ∈ s, isNameChar c = true) : isName s = true := by
  rw [isName, List.all_eq_true.mpr h]
  simp [hne]

theorem isNameChar_of_isName (h : isName s = true) : ∀ c ∈ s, isNameChar c = true :=
  List.all_eq_true.mp (Bool.and_eq_true_iff.mp h).2

theorem ne_nil_of_isName (h : isName s = true) : s ≠ [] := by
  rintro rfl
  cases h

/-- Blank space in front of a name is trimmed off. -/
theorem nameOf?_blank_append {gap : List Char} (hgap : Blank gap) (h : isName s = true) :
    nameOf? (gap ++ s) = some (String.ofList s) := by
  have hblank : ∀ c ∈ s, isBlank c = false := fun c hc => by
    have hname := isNameChar_of_isName h c hc
    rw [isNameChar, Bool.and_eq_true_iff, Bool.not_eq_true'] at hname
    exact hname.1
  have htight : Tight s := ⟨fun c hc => hblank c (List.mem_of_mem_head? hc),
    fun c hc => hblank c (List.mem_of_getLast? hc)⟩
  have htrim : trim (gap ++ s) = s :=
    TrimmedFrom.trim_eq ⟨htight, gap, [], hgap, blank_nil, by rw [List.append_nil]⟩
  rw [nameOf?, htrim, if_pos h]

theorem forall_ne_comma {gap : List Char} (hgap : Blank gap) (h : isName s = true) :
    ∀ c ∈ gap ++ s, (c == ',') = false := by
  rw [List.forall_mem_append]
  constructor <;> intro c hc <;> rw [beq_eq_false_iff_ne] <;> rintro rfl
  · exact absurd (hgap _ hc) (by decide)
  · exact absurd (isNameChar_of_isName h _ hc) (by decide)

/-- Names with commas between them are told apart, with a blank behind each comma. -/
theorem mapM_nameOf?_splitOn {gap : List Char} {name : String} {names : List String}
    (hgap : Blank gap) (h : ∀ n ∈ name :: names, isName n.toList = true) :
    ((gap ++ (joined ", " (name :: names)).toList).splitOn ',').mapM nameOf? =
      some (name :: names) := by
  induction names generalizing name gap with
  | nil =>
    obtain ⟨hname, -⟩ := List.forall_mem_cons.mp h
    rw [joined, String.intercalate_singleton, List.splitOn,
      List.splitOnP_eq_singleton (forall_ne_comma hgap hname)]
    simp [nameOf?_blank_append hgap hname]
  | cons second names ih =>
    obtain ⟨hname, hnames⟩ := List.forall_mem_cons.mp h
    have hblank : Blank [' '] := by decide
    have htext : gap ++ (joined ", " (name :: second :: names)).toList =
        (gap ++ name.toList) ++ ',' :: ([' '] ++ (joined ", " (second :: names)).toList) := by
      simp [joined, String.intercalate_cons_cons]
    have hrest := ih hblank hnames
    rw [List.splitOn] at hrest
    rw [htext, List.splitOn, List.splitOnP_append_cons_of_forall_mem (forall_ne_comma hgap hname) _
      (by simp), List.mapM_cons, nameOf?_blank_append hgap hname, hrest]
    simp

/-- Names are told apart by the commas that the emitter writes between them. -/
theorem namesOf?_joined {names : List String} (h : ∀ name ∈ names, isName name.toList = true) :
    namesOf? (joined ", " names).toList = some names := by
  cases names with
  | nil => rfl
  | cons name names =>
    obtain ⟨c, rest, hname⟩ := List.exists_cons_of_ne_nil (ne_nil_of_isName (h name (by simp)))
    have hne : (joined ", " (name :: names)).toList.isEmpty = false := by
      cases names <;> simp [joined, String.intercalate_cons_cons, hname]
    rw [namesOf?, hne, if_neg Bool.false_ne_true]
    exact mapM_nameOf?_splitOn blank_nil h

/-- No list of names closes a bracket. -/
theorem not_mem_joined {names : List String} (h : ∀ name ∈ names, isName name.toList = true) :
    ')' ∉ (joined ", " names).toList := by
  induction names with
  | nil => decide
  | cons name names ih =>
    obtain ⟨hname, hnames⟩ := List.forall_mem_cons.mp h
    have hfirst : ')' ∉ name.toList := fun hmem =>
      absurd (isNameChar_of_isName hname _ hmem) (by decide)
    cases names with
    | nil => rwa [joined, String.intercalate_singleton]
    | cons second names =>
      have hseparator : ')' ∉ ", ".toList := by decide
      rw [joined, String.intercalate_cons_cons, String.toList_append, String.toList_append,
        List.mem_append, List.mem_append, not_or, not_or]
      exact ⟨⟨hfirst, hseparator⟩, ih hnames⟩

/-- A name and what stands in parentheses behind it are one token. -/
theorem tokensBehind_applied (hname : isName name = true) (hinner : ')' ∉ inner)
    (happlied : applied? name inner = some x) :
    tokensBehind [] (name ++ '(' :: (inner ++ ')' :: rest)) =
      (tokensBehind [] rest).map (.operand x :: ·) := by
  have hparenthesis : isNameChar '(' = false := by decide
  rw [tokensBehind_append (isNameChar_of_isName hname), List.nil_append, tokensBehind,
    hparenthesis, if_neg Bool.false_ne_true, if_pos ⟨rfl, ne_nil_of_isName hname⟩,
    tokensInside_append hinner, List.nil_append, happlied]
  cases tokensBehind [] rest <;> rfl

/-- A mark ends what stands in front of it and gives its own tokens. -/
theorem tokensBehind_punctuation {c : Char} (tokens : List SizeToken) (rest : List Char)
    (hc : isNameChar c = false) (h : punctuation? c = some tokens) :
    tokensBehind [] (c :: rest) = (tokensBehind [] rest).map (tokens ++ ·) := by
  cases hrest : tokensBehind [] rest <;> simp [tokensBehind, hc, h, hrest, nameTokens]

/-- An operator is one token, with a blank on either side. -/
theorem tokensBehind_operator {c : Char} (token : SizeToken) (rest : List Char)
    (hc : isNameChar c = false) (h : punctuation? c = some [token]) :
    tokensBehind [] (' ' :: c :: ' ' :: rest) = (tokensBehind [] rest).map (token :: ·) := by
  have hblank (s : List Char) : tokensBehind [] (' ' :: s) = (tokensBehind [] s).map ([] ++ ·) :=
    tokensBehind_punctuation [] s (by decide) (by decide)
  rw [hblank, tokensBehind_punctuation _ _ hc h, hblank]
  cases tokensBehind [] rest <;> rfl

/-- The size of a type is one operand. -/
theorem tokensBehind_sizeof {type : String} (h : ')' ∉ type.toList) (rest : List Char) :
    tokensBehind [] ((SizeExpr.sizeof type).render.toList ++ rest) =
      (tokensBehind [] rest).map (.operand (.sizeof type) :: ·) := by
  have happlied : applied? "sizeof".toList type.toList = some (.sizeof type) := by
    rw [applied?, if_pos rfl, String.ofList_toList]
  have htext : (SizeExpr.sizeof type).render.toList ++ rest =
      "sizeof".toList ++ '(' :: (type.toList ++ ')' :: rest) := by
    simp [SizeExpr.render]
  rw [htext, tokensBehind_applied (by decide) h happlied]

/-- So is the call of a function, with all its arguments. -/
theorem tokensBehind_call {function : String} {arguments : List String}
    (h : (SizeExpr.call function arguments).IsLegible) (rest : List Char) :
    tokensBehind [] ((SizeExpr.call function arguments).render.toList ++ rest) =
      (tokensBehind [] rest).map (.operand (.call function arguments) :: ·) := by
  obtain ⟨hfunction, hsizeof, harguments⟩ := h
  have happlied : applied? function.toList (joined ", " arguments).toList =
      some (.call function arguments) := by
    rw [applied?, if_neg fun h => hsizeof (String.toList_injective h), namesOf?_joined harguments,
      String.ofList_toList]
    rfl
  have htext : (SizeExpr.call function arguments).render.toList ++ rest =
      function.toList ++ '(' :: ((joined ", " arguments).toList ++ ')' :: rest) := by
    simp [SizeExpr.render]
  rw [htext, tokensBehind_applied hfunction (not_mem_joined harguments) happlied]

/-- The tokens of a text that begins with an expression are those of the expression and of the rest,
if no name of the expression goes on in the rest. -/
theorem tokensBehind_render (hx : x.IsLegible)
    (hrest : ∀ c ∈ rest.head?, isNameChar c = false ∧ c ≠ '(') :
    tokensBehind [] (x.render.toList ++ rest) = (tokensBehind [] rest).map (x.tokens ++ ·) := by
  -- every mark behind an operand ends its last name
  have hends {c : Char} (s : List Char) (hc : isNameChar c = false ∧ c ≠ '(') :
      ∀ d ∈ (c :: s).head?, isNameChar d = false ∧ d ≠ '(' := by
    intro d hd
    rwa [← Option.some.inj hd]
  induction x generalizing rest with
  | sizeof type => exact tokensBehind_sizeof hx rest
  | parameter name =>
    have htokens : nameTokens name.toList = [.operand (.parameter name)] := by
      simp [nameTokens, ne_nil_of_isName hx]
    rw [SizeExpr.render, tokensBehind_append (isNameChar_of_isName hx), List.nil_append,
      tokensBehind_name hrest, htokens]
    rfl
  | sum left right ihleft ihright =>
    have htext : (SizeExpr.sum left right).render.toList ++ rest =
        left.render.toList ++ ' ' :: '+' :: ' ' :: (right.render.toList ++ rest) := by
      simp [SizeExpr.render]
    rw [htext, ihleft hx.1 (hends _ (by decide)),
      tokensBehind_operator .plus _ (by decide) (by decide), ihright hx.2 hrest]
    simp [SizeExpr.tokens, Function.comp_def]
  | product left right ihleft ihright =>
    have htext : (SizeExpr.product left right).render.toList ++ rest =
        left.render.toList ++ ' ' :: '*' :: ' ' :: (right.render.toList ++ rest) := by
      simp [SizeExpr.render]
    rw [htext, ihleft hx.1 (hends _ (by decide)),
      tokensBehind_operator .times _ (by decide) (by decide), ihright hx.2 hrest]
    simp [SizeExpr.tokens, Function.comp_def]
  | group inner ih =>
    have htext : (SizeExpr.group inner).render.toList ++ rest =
        '(' :: (inner.render.toList ++ ')' :: rest) := by
      simp [SizeExpr.render]
    rw [htext, tokensBehind_punctuation [.opening] _ (by decide) (by decide),
      ih hx (hends _ (by decide)),
      tokensBehind_punctuation [.closing] _ (by decide) (by decide)]
    simp [SizeExpr.tokens, Function.comp_def]
  | call function arguments => exact tokensBehind_call hx rest

end Texts

section Operators

variable {w : Waiting} {outer : List Waiting} {x left right : SizeExpr} {rest : List SizeToken}

/-- A left factor waits for one factor. -/
theorem readOperator_product (hw : w.product? = none) :
    readOperator { w with product? := some left } outer right rest =
      readOperator w outer (.product left right) rest := by
  rcases rest with _ | ⟨token, rest⟩
  · simp [readOperator, Waiting.sum, Waiting.product, hw]
  · cases token <;> simp [readOperator, Waiting.sum, Waiting.product, hw]

/-- A left summand waits for one summand, which goes on as long as there are factors. -/
theorem readOperator_sum (hrest : rest.head? ≠ some .times) :
    readOperator { sum? := some left } outer right rest =
      readOperator {} outer (.sum left right) rest := by
  rcases rest with _ | ⟨token, rest⟩
  · simp [readOperator, Waiting.sum, Waiting.product]
  · cases token <;> simp_all [readOperator, Waiting.sum, Waiting.product]

/-- An expression is read as one operand. What waits in front of it must bind less tightly than its
own operators, and so must what is behind it. -/
theorem readOperand_tokens (hx : x.IsGrouped) (hproduct : x.level ≤ 1 → w.product? = none)
    (hsum : x.level = 0 → w.sum? = none ∧ rest.head? ≠ some .times) :
    readOperand w outer (x.tokens ++ rest) = readOperator w outer x rest := by
  induction x generalizing w outer rest with
  | sizeof _ | parameter _ | call _ _ => rfl
  | sum left right ihleft ihright =>
    obtain ⟨hleft, hright, hlevel⟩ := hx
    obtain ⟨hnone, htimes⟩ := hsum rfl
    -- a sum is read only where nothing waits for it
    obtain rfl : w = {} := Waiting.ext hnone (hproduct (Nat.zero_le 1))
    have hfirst : readOperand {} outer (left.tokens ++ .plus :: (right.tokens ++ rest)) =
        readOperator {} outer left (.plus :: (right.tokens ++ rest)) :=
      ihleft hleft (fun _ => rfl) fun _ => ⟨rfl, nofun⟩
    have hsecond : readOperand { sum? := some left } outer (right.tokens ++ rest) =
        readOperator { sum? := some left } outer right rest :=
      ihright hright (fun _ => rfl) fun hzero => absurd hlevel (by omega)
    rw [SizeExpr.tokens, List.append_assoc, List.cons_append, hfirst]
    exact hsecond.trans (readOperator_sum htimes)
  | product left right ihleft ihright =>
    obtain ⟨hleft, hright, hleftLevel, hrightLevel⟩ := hx
    have hnone : w.product? = none := hproduct (Nat.le_refl 1)
    have hproductEq : w.product left = left := by rw [Waiting.product, hnone]
    have hfirst : readOperand w outer (left.tokens ++ .times :: (right.tokens ++ rest)) =
        readOperator w outer left (.times :: (right.tokens ++ rest)) :=
      ihleft hleft (fun _ => hnone) fun hzero => absurd hleftLevel (by omega)
    have hsecond : readOperand { w with product? := some left } outer (right.tokens ++ rest) =
        readOperator { w with product? := some left } outer right rest :=
      ihright hright (fun hone => absurd hrightLevel (by omega))
        fun hzero => absurd hrightLevel (by omega)
    rw [SizeExpr.tokens, List.append_assoc, List.cons_append, hfirst, readOperator, hproductEq,
      hsecond, readOperator_product hnone]
  | group inner ih =>
    -- inside the brackets nothing waits: it stands on the stack until they close
    have hinner : readOperand {} (w :: outer) (inner.tokens ++ .closing :: rest) =
        readOperator {} (w :: outer) inner (.closing :: rest) :=
      ih hx (fun _ => rfl) fun _ => ⟨rfl, nofun⟩
    have htokens : inner.group.tokens ++ rest =
        .opening :: (inner.tokens ++ .closing :: rest) := by
      simp [SizeExpr.tokens]
    rw [htokens, readOperand, hinner]
    rfl

end Operators

/-- The text of an expression is read as this expression. -/
theorem read?_render {x : SizeExpr} (hgrouped : x.IsGrouped) (hlegible : x.IsLegible) :
    SizeExpr.read? x.render = some x := by
  have htokens : tokensBehind [] x.render.toList = some x.tokens := by
    have h : tokensBehind [] (x.render.toList ++ []) = (some []).map (x.tokens ++ ·) :=
      tokensBehind_render hlegible nofun
    rwa [List.append_nil, Option.map_some, List.append_nil] at h
  have hread : readOperand {} [] (x.tokens ++ []) = some x :=
    readOperand_tokens hgrouped (fun _ => rfl) fun _ => ⟨rfl, nofun⟩
  rw [List.append_nil] at hread
  rw [SizeExpr.read?, htokens]
  exact hread

example : SizeExpr.read? "sizeof(unsigned int) + (count * sizeof(char *))" =
    some (.sum (.sizeof "unsigned int")
      (.group (.product (.parameter "count") (.sizeof "char *")))) := by
  decide

end MessageSchema.Generated
