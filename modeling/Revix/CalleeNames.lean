import Revix.QualifiedNames
import Revix.TextSearch

namespace Revix
namespace RepoIndexer

/-! ## The text of a callee -/

/-- Between the last dot of a text, or its beginning, and the next opening bracket, or its end,
there is one word with blanks around it. -/
def EndsIn (text word : List Char) : Prop :=
  ∃ before lead trail after, text = before ++ (lead ++ word ++ trail ++ after) ∧
    (before = [] ∨ before.getLast? = some '.') ∧ '.' ∉ lead ++ word ++ trail ++ after ∧
    (∀ c ∈ lead, isSpace c = true) ∧ Stripped word ∧ '(' ∉ word ∧
    (∀ c ∈ trail, isSpace c = true) ∧ (after = [] ∨ after.head? = some '(')

section Text

variable {text word before rest : List Char}

/-- `text.split(".")[-1]` -/
theorem lastPiece_append (hbefore : before = [] ∨ before.getLast? = some '.') (hrest : '.' ∉ rest) :
    ((before ++ rest).reverse.takeWhile (· ≠ '.')).reverse = rest := by
  have hall : ∀ c ∈ rest.reverse, decide (c ≠ '.') = true := by
    intro c hc
    simp only [decide_eq_true_eq]
    rintro rfl
    exact hrest (List.mem_reverse.1 hc)
  have hnone : before.reverse.takeWhile (· ≠ '.') = [] := by
    rcases hbefore with rfl | hlast
    · rfl
    · rw [← List.head?_reverse] at hlast
      cases hrev : before.reverse with
      | nil => rfl
      | cons c cs =>
        rw [hrev] at hlast
        obtain rfl := Option.some.inj hlast
        rfl
  rw [List.reverse_append, List.takeWhile_append_of_pos hall, hnone, List.append_nil,
    List.reverse_reverse]

theorem head?_dropWhile_ne (d : Char) (l : List Char) :
    l.dropWhile (· ≠ d) = [] ∨ (l.dropWhile (· ≠ d)).head? = some d := by
  have hhead := List.head?_dropWhile_not (· ≠ d) l
  cases hdrop : l.dropWhile (· ≠ d) with
  | nil => exact .inl rfl
  | cons c cs =>
    rw [hdrop] at hhead
    exact .inr (by simpa using hhead)

theorem not_mem_takeWhile_ne (d : Char) (l : List Char) : d ∉ l.takeWhile (· ≠ d) := by
  intro hmem
  have hne := List.mem_takeWhile_imp hmem
  simp at hne

theorem exists_lastPiece (text : List Char) : ∃ before,
    text = before ++ (text.reverse.takeWhile (· ≠ '.')).reverse ∧
      (before = [] ∨ before.getLast? = some '.') := by
  refine ⟨(text.reverse.dropWhile (· ≠ '.')).reverse, ?_, ?_⟩
  · rw [← List.reverse_append, List.takeWhile_append_dropWhile, List.reverse_reverse]
  · rw [List.getLast?_reverse, List.reverse_eq_nil_iff]
    exact head?_dropWhile_ne '.' text.reverse

theorem takeWhile_append_bracket {head after : List Char} (hhead : '(' ∉ head)
    (hafter : after = [] ∨ after.head? = some '(') :
    (head ++ after).takeWhile (· ≠ '(') = head := by
  have hall : ∀ c ∈ head, decide (c ≠ '(') = true := by
    intro c hc
    simp only [decide_eq_true_eq]
    rintro rfl
    exact hhead hc
  rw [List.takeWhile_append_of_pos hall]
  obtain _ | ⟨c, cs⟩ := after
  · simp
  · obtain rfl : c = '(' := by simpa using hafter
    simp

theorem not_bracket_of_isSpace {l : List Char} (h : ∀ c ∈ l, isSpace c = true) : '(' ∉ l :=
  fun hmem => Bool.noConfusion (show false = true from h _ hmem)

/-- The name that is recorded is the word that the text ends in. -/
theorem calledName_eq_iff {text word : String} :
    calledName text = word ↔ EndsIn text.toList word.toList := by
  constructor
  · rintro rfl
    obtain ⟨before, hsplit, hbefore⟩ := exists_lastPiece text.toList
    have hdot := not_mem_takeWhile_ne '.' text.toList.reverse
    rw [← List.mem_reverse] at hdot
    rw [calledName]
    generalize (text.toList.reverse.takeWhile (· ≠ '.')).reverse = last at hsplit hdot ⊢
    obtain ⟨lead, trail, hhead, hlead, htrail⟩ := exists_strip (last.takeWhile (· ≠ '('))
    have hlast : last = lead ++ stripChars (last.takeWhile (· ≠ '(')) ++ trail ++
        last.dropWhile (· ≠ '(') := by
      rw [← hhead, List.takeWhile_append_dropWhile]
    have hbracket := not_mem_takeWhile_ne '(' last
    rw [hhead] at hbracket
    simp only [strip, String.toList_ofList]
    refine ⟨before, lead, trail, last.dropWhile (· ≠ '('), hlast ▸ hsplit, hbefore, hlast ▸ hdot,
      hlead, stripped_stripChars _, fun hmem => hbracket ?_, htrail, head?_dropWhile_ne '(' last⟩
    exact List.mem_append_left _ (List.mem_append_right _ hmem)
  · rintro ⟨before, lead, trail, after, htext, hbefore, hdot, hlead, hword, hbracket, htrail,
      hafter⟩
    have hhead : '(' ∉ lead ++ word.toList ++ trail := by
      simp only [List.mem_append, not_or]
      exact ⟨⟨not_bracket_of_isSpace hlead, hbracket⟩, not_bracket_of_isSpace htrail⟩
    rw [calledName, htext, lastPiece_append hbefore hdot, takeWhile_append_bracket hhead hafter,
      String.ext_iff, strip, String.toList_ofList, String.toList_ofList]
    exact stripChars_append hlead hword htrail

/-- A text that is a word of an identifier. -/
def Plain (word : List Char) : Prop :=
  '.' ∉ word ∧ '(' ∉ word ∧ ∀ c ∈ word, isSpace c = false

theorem Plain.stripped (h : Plain word) : Stripped word :=
  ⟨fun c hc => h.2.2 c (List.mem_of_mem_head? hc),
    fun c hc => h.2.2 c (List.mem_of_mem_getLast? hc)⟩

/-- A word after a dot, or alone. -/
theorem endsIn_plain (hbefore : before = [] ∨ before.getLast? = some '.') (hword : Plain word) :
    EndsIn (before ++ word) word :=
  ⟨before, [], [], [], by simp, hbefore, by simpa using hword.1, by simp, hword.stripped,
    hword.2.1, by simp, .inl rfl⟩

/-- Arguments change nothing if there is no dot in them. -/
theorem EndsIn.call {args : List Char} (h : EndsIn text word) (hargs : '.' ∉ args) :
    EndsIn (text ++ '(' :: args) word := by
  obtain ⟨before, lead, trail, after, htext, hbefore, hdot, hlead, hword, hbracket, htrail,
    hafter⟩ := h
  refine ⟨before, lead, trail, after ++ '(' :: args, by simp [htext], hbefore, ?_, hlead, hword,
    hbracket, htrail, ?_⟩
  · simp only [List.mem_append, List.mem_cons, not_or] at hdot ⊢
    exact ⟨hdot.1, hdot.2, by decide, hargs⟩
  · rcases hafter with rfl | hafter
    · exact .inr rfl
    · exact .inr (by simp [hafter])

end Text

/-! ## The identifier of a callee -/

def identifierTypes : List String :=
  ["identifier", "property_identifier", "private_property_identifier", "field_identifier",
    "type_identifier", "super", "this", "import"]

/-- The child of an expression that its last identifier is in: what is called, what is selected,
what is indexed, the name of a function, or what is in the parentheses. -/
def leadsTo (type : String) (children : List Node) (c : Node) : Bool :=
  if type ∈ ["call", "call_expression"] then
    c.field = some "function" || !children.any fun c => c.field = some "function"
  else if type = "attribute" then c.field = some "attribute"
  else if type = "member_expression" then c.field = some "property"
  else if type = "selector_expression" then c.field = some "field"
  else if type = "subscript" then c.field = some "value"
  else if type = "subscript_expression" then c.field = some "object"
  else if type = "index_expression" then c.field = some "operand"
  else if type = "function_expression" then c.field = some "name"
  else if type = "parenthesized_expression" then c.type ∉ ["(", ")", "comment"]
  else false

mutual

/-- The last identifier of an expression, of what is called where it is a call. -/
def finalIdentifier : Node → Option Node
  | .mk type field span children =>
    if type ∈ identifierTypes then some (.mk type field span children)
    else firstIdentifier (leadsTo type children) children

def firstIdentifier (p : Node → Bool) : List Node → Option Node
  | [] => none
  | c :: cs => if p c then finalIdentifier c else firstIdentifier p cs

end

section Calls

variable (source : String)

def finalName (n : Node) : Option String := (finalIdentifier n).map (Node.text source)

def isCall (n : Node) : Bool := n.type ∈ ["call", "call_expression"]

def calleeOf (n : Node) : Option Node := n.childByFieldName "function" <|> n.children.head?

def NamesCallee (n : Node) (r : Reference) : Prop :=
  ∃ callee, calleeOf n = some callee ∧ finalName source callee = some r.symbolName

/-- The text of a callee ends in the callee's name, or in nothing that could be one. -/
def Legible (callee : Node) : Prop :=
  EndsIn (callee.text source).toList [] ∨
    ∃ name, finalName source callee = some name ∧
      EndsIn (callee.text source).toList name.toList

/-- A name, or a chain of attributes: its identifier comes last, alone or after a dot. -/
structure EndsInName (callee name : Node) : Prop where
  identifier : finalIdentifier callee = some name
  starts : callee.span.start ≤ name.span.start
  spans : name.span.start ≤ name.span.stop
  stops : name.span.stop = callee.span.stop
  plain : Plain (name.text source).toList
  after : Span.chars source ⟨callee.span.start, name.span.start⟩ = [] ∨
    (Span.chars source ⟨callee.span.start, name.span.start⟩).getLast? = some '.'

/-- The node calls the callee, with no dot in the arguments. -/
structure CallsPlainly (n callee : Node) : Prop where
  call : isCall n = true
  calls : calleeOf n = some callee
  args : ∃ args, (n.text source).toList = (callee.text source).toList ++ '(' :: args ∧ '.' ∉ args

end Calls

section References

variable {source filePath : String}

mutual

/-- Each call is looked at once. -/
theorem extractReferences_eq (n : Node) :
    extractReferences source filePath n = (nodesIn n).flatMap (referenceOf source filePath) := by
  cases n with
  | mk type field span children =>
    rw [extractReferences, nodesIn, List.flatMap_cons, extractCalls_eq children]

theorem extractCalls_eq (ns : List Node) :
    extractCalls source filePath ns = (nodesAmong ns).flatMap (referenceOf source filePath) := by
  cases ns with
  | nil => rfl
  | cons c cs =>
    rw [extractCalls, nodesAmong, List.flatMap_append, extractReferences_eq c, extractCalls_eq cs]

end

/-- A call has one reference, unless no name is read off its callee. -/
theorem mem_referenceOf {n : Node} (hcall : isCall n = true) {r : Reference} :
    r ∈ referenceOf source filePath n ↔
      ∃ callee, calleeOf n = some callee ∧ calledName (callee.text source) ≠ "" ∧
        r = ⟨calledName (callee.text source), filePath, n.startRow source, "", "call"⟩ := by
  have htype : n.type ∈ ["call", "call_expression"] := of_decide_eq_true hcall
  rw [referenceOf, if_pos htype, calleeOf]
  cases (n.childByFieldName "function" <|> n.children.head?) with
  | none => simp
  | some callee =>
    by_cases hname : calledName (callee.text source) = "" <;> simp [hname]

theorem legible_iff {callee : Node} : Legible source callee ↔
    (calledName (callee.text source) ≠ "" →
      finalName source callee = some (calledName (callee.text source))) := by
  have hempty : calledName (callee.text source) = "" ↔
      EndsIn (callee.text source).toList [] := calledName_eq_iff
  rw [Legible, ← hempty]
  constructor
  · rintro (hnone | ⟨name, hname, hends⟩) hne
    · exact absurd hnone hne
    · rw [calledName_eq_iff.2 hends, hname]
  · intro h
    by_cases hnone : calledName (callee.text source) = ""
    · exact .inl hnone
    · exact .inr ⟨_, h hnone, calledName_eq_iff.1 rfl⟩

end References

/-! ## Callees with legible texts -/

section Legible

variable {source : String}

theorem firstIdentifier_eq (p : Node → Bool) (ns : List Node) :
    firstIdentifier p ns = (ns.find? p).bind finalIdentifier := by
  induction ns with
  | nil => rfl
  | cons c cs ih =>
    rw [firstIdentifier]
    by_cases hc : p c = true
    · rw [if_pos hc, List.find?_cons_of_pos hc, Option.bind_some]
    · rw [if_neg hc, List.find?_cons_of_neg hc, ih]

/-- The identifier of a call is that of its callee. -/
theorem finalIdentifier_call {n : Node} (hcall : isCall n = true) :
    finalIdentifier n = (calleeOf n).bind finalIdentifier := by
  obtain ⟨type, field, span, children⟩ := n
  have htype : type ∈ ["call", "call_expression"] := of_decide_eq_true hcall
  have hname : type ∉ identifierTypes := by
    intro hmem
    simp only [List.mem_cons, List.not_mem_nil, or_false] at htype
    rcases htype with rfl | rfl <;> revert hmem <;> decide
  rw [finalIdentifier, if_neg hname, firstIdentifier_eq]
  congr 1
  have hleads : leadsTo type children = fun c =>
      c.field = some "function" || !children.any fun c => c.field = some "function" := by
    funext c
    rw [leadsTo, if_pos htype]
  rw [hleads, calleeOf]
  cases hany : children.any fun c => c.field = some "function" with
  | true =>
    obtain ⟨c, hc⟩ := Option.isSome_iff_exists.1 (List.find?_isSome.2 (List.any_eq_true.1 hany))
    simp only [Bool.not_true, Bool.or_false, Node.childByFieldName, Node.children]
    rw [hc]
    rfl
  | false =>
    have hnone : children.find? (fun c => c.field = some "function") = none :=
      List.find?_eq_none.2 fun c hc => by simpa using List.any_eq_false.1 hany c hc
    simp only [Bool.not_false, Bool.or_true, Node.childByFieldName, Node.children]
    rw [hnone]
    cases children <;> rfl

/-- The text of a span, cut in two. -/
theorem chars_append (source : String) {a b c : ℕ} (hab : a ≤ b) (hbc : b ≤ c) :
    Span.chars source ⟨a, c⟩ = Span.chars source ⟨a, b⟩ ++ Span.chars source ⟨b, c⟩ := by
  unfold Span.chars
  rw [← List.map_append]
  congr 1
  have hsorted : (positions source).Pairwise fun p q => p.offset < q.offset :=
    positionsFrom_pairwise 0 0 source.toList
  generalize positions source = ps at hsorted ⊢
  induction hsorted with
  | nil => rfl
  | @cons p ps hp _ ih =>
    by_cases hlt : p.offset < b
    · have hwhole : Span.holds ⟨a, c⟩ p = Span.holds ⟨a, b⟩ p := by
        rw [Bool.eq_iff_iff, holds_iff, holds_iff]
        simp only
        omega
      have hsecond : ¬ Span.holds ⟨b, c⟩ p = true := by
        rw [holds_iff]
        simp only
        omega
      rw [List.filter_cons, List.filter_cons, hwhole, List.filter_cons_of_neg hsecond, ih]
      split <;> rfl
    · have hlate : ∀ q ∈ p :: ps, b ≤ q.offset := by
        refine List.forall_mem_cons.2 ⟨not_lt.1 hlt, fun q hq => ?_⟩
        have hpq := hp q hq
        omega
      have hfirst : (p :: ps).filter (Span.holds ⟨a, b⟩) = [] := by
        refine List.filter_eq_nil_iff.2 fun q hq => ?_
        have hq := hlate q hq
        rw [holds_iff]
        simp only
        omega
      rw [hfirst, List.nil_append]
      refine List.filter_congr fun q hq => ?_
      have hq := hlate q hq
      rw [Bool.eq_iff_iff, holds_iff, holds_iff]
      simp only
      omega

theorem text_append (source : String) {n : Node} {b : ℕ} (hstart : n.span.start ≤ b)
    (hstop : b ≤ n.span.stop) : (n.text source).toList =
      Span.chars source ⟨n.span.start, b⟩ ++ Span.chars source ⟨b, n.span.stop⟩ := by
  rw [Node.text, Span.text, String.toList_ofList, ← chars_append source hstart hstop]

theorem legible_chain {callee name : Node} (h : EndsInName source callee name) :
    Legible source callee := by
  refine .inr ⟨name.text source, by rw [finalName, h.identifier]; rfl, ?_⟩
  have htext : (name.text source).toList =
      Span.chars source ⟨name.span.start, callee.span.stop⟩ := by
    rw [Node.text, Span.text, String.toList_ofList, ← h.stops]
  rw [text_append source h.starts (h.stops ▸ h.spans), ← htext]
  exact endsIn_plain h.after h.plain

/-- The name of a call is the one that its callee's text has, if there is no dot in the arguments. -/
theorem CallsPlainly.calledName_eq {n callee : Node} (h : CallsPlainly source n callee) :
    calledName (n.text source) = calledName (callee.text source) := by
  obtain ⟨args, htext, hargs⟩ := h.args
  rw [calledName_eq_iff, htext]
  exact (calledName_eq_iff.1 rfl).call hargs

theorem legible_call_iff {n callee : Node} (h : CallsPlainly source n callee) :
    Legible source n ↔ Legible source callee := by
  have hname : finalName source n = finalName source callee := by
    rw [finalName, finalIdentifier_call h.call, h.calls]
    rfl
  rw [legible_iff, legible_iff, h.calledName_eq, hname]

end Legible

/-- Each call is looked at once, and its reference names what is called exactly when the callee's
text, from its last dot to the next opening bracket, is blank or the callee's name alone. So it is
for a name and a chain of attributes, and for a call as for its own callee if there is no dot in
its arguments. -/
theorem callee_names_iff (source filePath : String) (root : Node) :
    extractReferences source filePath root =
        (nodesIn root).flatMap (referenceOf source filePath) ∧
      (∀ n ∈ nodesIn root, isCall n = true →
        ((∀ r ∈ referenceOf source filePath n, NamesCallee source n r) ↔
          ∀ callee, calleeOf n = some callee → Legible source callee)) ∧
      (∀ callee name, EndsInName source callee name → Legible source callee) ∧
      ∀ n callee, CallsPlainly source n callee → (Legible source n ↔ Legible source callee) := by
  refine ⟨extractReferences_eq root, fun n _ hcall => ?_, fun _ _ => legible_chain,
    fun _ _ => legible_call_iff⟩
  constructor
  · intro h callee hcallee
    refine legible_iff.2 fun hne => ?_
    obtain ⟨callee', hcallee', hname⟩ := h _ ((mem_referenceOf hcall).2 ⟨callee, hcallee, hne, rfl⟩)
    rw [hcallee] at hcallee'
    obtain rfl := Option.some.inj hcallee'
    exact hname
  · intro h r hr
    obtain ⟨callee, hcallee, hne, rfl⟩ := (mem_referenceOf hcall).1 hr
    exact ⟨callee, hcallee, legible_iff.1 (h callee hcallee) hne⟩

end RepoIndexer

namespace Sample

/-- The result of a call is called, whose argument is a call of an attribute. -/
def resultCalled : String := "run(db.close())()"

def innerCallee : Node :=
  .mk "call" (some "function") ⟨0, 15⟩ [
    .mk "identifier" (some "function") ⟨0, 3⟩ [],
    .mk "argument_list" (some "arguments") ⟨3, 15⟩ [
      .mk "(" none ⟨3, 4⟩ [],
      .mk "call" none ⟨4, 14⟩ [
        .mk "attribute" (some "function") ⟨4, 12⟩ [
          .mk "identifier" (some "object") ⟨4, 6⟩ [], .mk "." none ⟨6, 7⟩ [],
          .mk "identifier" (some "attribute") ⟨7, 12⟩ []],
        .mk "argument_list" (some "arguments") ⟨12, 14⟩ [
          .mk "(" none ⟨12, 13⟩ [], .mk ")" none ⟨13, 14⟩ []]],
      .mk ")" none ⟨14, 15⟩ []]]

def outerCall : Node :=
  .mk "call" none ⟨0, 17⟩ [innerCallee,
    .mk "argument_list" (some "arguments") ⟨15, 17⟩ [
      .mk "(" none ⟨15, 16⟩ [], .mk ")" none ⟨16, 17⟩ []]]

def resultTree : Tree where
  root := .mk "module" none ⟨0, 17⟩ [.mk "expression_statement" none ⟨0, 17⟩ [outerCall]]
  hasError := false
  laidOut := by decide

end Sample

/-- The call of what `run` returns is recorded as a call of `close`. -/
theorem argument_named : ¬ ∀ (source filePath : String) (tree : Tree),
    ∀ n ∈ RepoIndexer.nodesIn tree.root, RepoIndexer.isCall n = true →
      ∀ r ∈ RepoIndexer.referenceOf source filePath n, RepoIndexer.NamesCallee source n r := by
  intro hall
  have hmem : Sample.outerCall ∈ RepoIndexer.nodesIn Sample.resultTree.root :=
    .tail _ (.tail _ (.head _))
  have href : RepoIndexer.referenceOf Sample.resultCalled "run.py" Sample.outerCall =
      [⟨"close", "run.py", 0, "", "call"⟩] := by decide
  obtain ⟨callee, hcallee, hname⟩ := hall Sample.resultCalled "run.py" Sample.resultTree
    Sample.outerCall hmem rfl _ (href ▸ List.mem_singleton_self _)
  have hinner : RepoIndexer.calleeOf Sample.outerCall = some Sample.innerCallee := rfl
  rw [hinner] at hcallee
  obtain rfl := Option.some.inj hcallee
  have hrun : RepoIndexer.finalName Sample.resultCalled Sample.innerCallee = some "run" := by decide
  rw [hrun] at hname
  revert hname
  decide

end Revix
