/-
The indentation stack. It grows and shrinks in `try_read_indent` and at the end
of the program only; every other reader leaves it alone and pushes neither
`INDENT` nor `DEDENT` (`Plain`).

A line that is less indented than the top leaves blocks until the top is its
own indentation. When no block has that indentation the stack runs empty
(`dedent_missing`).
-/
import Mathlib
import Pylang.Lex.Frame

namespace Pylang.Lex

namespace Lexer

/-! ## Readers that leave the stack alone -/

def IndentFree (type : TokenType) : Prop := type ≠ .indent ∧ type ≠ .dedent ∧ type ≠ .endmarker

/-- The stack is as it was, and no token pushed says otherwise. -/
structure Plain (L L' : Lexer) : Prop where
  indentValues : L'.indentValues = L.indentValues
  tokens : ∃ ts, L'.tokens = L.tokens ++ ts ∧ ∀ t ∈ ts, IndentFree t.tokenType

theorem Plain.trans {L L' L'' : Lexer} (h : Plain L L') (h' : Plain L' L'') : Plain L L'' := by
  obtain ⟨hi, ts, hts, hall⟩ := h
  obtain ⟨hi', ts', hts', hall'⟩ := h'
  refine ⟨hi'.trans hi, ts ++ ts', ?_, fun t ht => ?_⟩
  · rw [hts', hts, List.append_assoc]
  · rcases List.mem_append.1 ht with ht | ht
    · exact hall t ht
    · exact hall' t ht

theorem Plain.of_eq {L L' : Lexer} (hi : L'.indentValues = L.indentValues) (ht : L'.tokens = L.tokens) : Plain L L' :=
  ⟨hi, [], by rw [ht, List.append_nil], nofun⟩

theorem plain_pushToken (L : Lexer) {type : TokenType} (h : IndentFree type) (start stop : Position) :
    Plain L (L.pushToken type start stop) :=
  ⟨rfl, [⟨type, start, stop⟩], rfl, fun t ht => by
    obtain rfl := List.mem_singleton.1 ht
    exact h⟩

/-- Every reader but that of the indentation leaves the stack alone. -/
theorem plain_frame : StepFrame Plain Plain IndentFree where
  trans := Plain.trans
  adjust := fun ht hi _ _ _ => Plain.of_eq hi ht
  pushToken := fun L _ h start stop => plain_pushToken L h start stop
  ordinary := fun h => ⟨h.1, h.2.1, h.2.2.1⟩
  keep := id
  before := Plain.trans
  after := Plain.trans
  leave := fun _ => Plain.of_eq rfl rfl
  enter := fun _ => Plain.of_eq rfl rfl
  begin := by
    intro L read h quote skip
    let start : Lexer := { read with cursor := L.cursor, position := L.position, quote := quote :: read.quote }
    have hstart : Plain L (start.advance skip) := Plain.of_eq h.indentValues h.tokens
    have hpushed := hstart.trans (plain_pushToken _ (show IndentFree .fstringStart by simp [IndentFree]) L.position
      (start.advance skip).position)
    exact ⟨hpushed.indentValues, hpushed.tokens⟩
  finish := by
    intro L below _ start stop
    have hpushed := plain_pushToken L (show IndentFree .fstringEnd by simp [IndentFree]) start stop
    exact ⟨hpushed.indentValues, hpushed.tokens⟩

section
variable {program : List Char} {E : Stop → Prop}

theorem ensures_tryReadComment (hE : Aborts E) (L : Lexer) :
    Ensures E (L.tryReadComment program) fun r => Plain L r.2 :=
  plain_frame.tryReadComment (by simp [IndentFree]) (by simp [IndentFree]) (by simp [IndentFree]) hE L

theorem ensures_tryEmptyLine (hE : Aborts E) (L : Lexer) :
    Ensures E (L.tryEmptyLine program) fun r => Plain L r.2 :=
  plain_frame.tryEmptyLine (by simp [IndentFree]) hE L

end

/-! ## The stack -/

def countType (type : TokenType) (ts : List Token) : Nat := ts.countP fun t => t.tokenType = type

/-- The stack starts with 0 and is strictly increasing, and its blocks are the `INDENT` tokens without their
`DEDENT`. -/
structure StackOk (L : Lexer) : Prop where
  bottom : L.indentValues.getLast? = some 0
  increasing : L.indentValues.Pairwise (· > ·)
  balance : countType .indent L.tokens = countType .dedent L.tokens + (L.indentValues.length - 1)

def NoEnd (L : Lexer) : Prop := ∀ t ∈ L.tokens, t.tokenType ≠ .endmarker

theorem countType_append (type : TokenType) (ts us : List Token) :
    countType type (ts ++ us) = countType type ts + countType type us := List.countP_append

theorem countType_eq_zero {type : TokenType} {ts : List Token} (h : ∀ t ∈ ts, t.tokenType ≠ type) :
    countType type ts = 0 := List.countP_eq_zero.2 fun t ht => by simpa using h t ht

theorem Plain.stackOk {L L' : Lexer} (h : Plain L L') (hL : StackOk L) : StackOk L' := by
  obtain ⟨hi, ts, hts, hfree⟩ := h
  refine ⟨hi ▸ hL.bottom, hi ▸ hL.increasing, ?_⟩
  rw [hi, hts, countType_append, countType_append, countType_eq_zero fun t ht => (hfree t ht).1,
    countType_eq_zero fun t ht => (hfree t ht).2.1]
  exact hL.balance

theorem Plain.noEnd {L L' : Lexer} (h : Plain L L') (hL : NoEnd L) : NoEnd L' := by
  obtain ⟨-, ts, hts, hfree⟩ := h
  intro t ht
  rw [hts] at ht
  rcases List.mem_append.1 ht with ht | ht
  · exact hL t ht
  · exact (hfree t ht).2.2

theorem StackOk.push {L : Lexer} {v top : Nat} {below : List Nat} (h : StackOk L) (hL : L.indentValues = top :: below)
    (hv : top < v) (start stop : Position) :
    StackOk { L.pushToken .indent start stop with indentValues := v :: L.indentValues } := by
  obtain ⟨hbottom, hincreasing, hbalance⟩ := h
  rw [hL] at hbottom hincreasing hbalance
  refine ⟨?_, ?_, ?_⟩
  · show (v :: L.indentValues).getLast? = some 0
    rw [hL, List.getLast?_cons_cons]
    exact hbottom
  · show (v :: L.indentValues).Pairwise (· > ·)
    rw [hL]
    refine List.pairwise_cons.2 ⟨fun w hw => ?_, hincreasing⟩
    rcases List.mem_cons.1 hw with rfl | hw
    · exact hv
    · exact Nat.lt_trans ((List.pairwise_cons.1 hincreasing).1 w hw) hv
  · show countType .indent (L.tokens ++ [_]) = countType .dedent (L.tokens ++ [_]) + ((v :: L.indentValues).length - 1)
    rw [countType_append, countType_append, hbalance, hL]
    simp only [countType, List.countP_cons, List.countP_nil, List.length_cons]
    simp
    omega

theorem StackOk.pop {L : Lexer} {top below : Nat} {rest : List Nat} (h : StackOk L)
    (hL : L.indentValues = top :: below :: rest) (start stop : Position) :
    StackOk { L.pushToken .dedent start stop with indentValues := below :: rest } := by
  obtain ⟨hbottom, hincreasing, hbalance⟩ := h
  rw [hL] at hbottom hincreasing hbalance
  refine ⟨?_, (List.pairwise_cons.1 hincreasing).2, ?_⟩
  · rwa [List.getLast?_cons_cons] at hbottom
  · show countType .indent (L.tokens ++ [_]) = countType .dedent (L.tokens ++ [_]) + ((below :: rest).length - 1)
    rw [countType_append, countType_append, hbalance]
    simp only [countType, List.countP_cons, List.countP_nil, List.length_cons]
    simp
    omega

/-- Leaving blocks keeps the stack in order, if it has the indentation that was read. -/
theorem ensures_dedent {E : Stop → Prop} {v : Nat} {start stop : Position} {stack : List Nat} {L : Lexer}
    (hv : v ∈ stack ∨ E .noIndent) (hL : L.indentValues = stack) (h : StackOk L ∧ NoEnd L) :
    Ensures E (dedent v start stop stack L) fun L' => StackOk L' ∧ NoEnd L' := by
  induction stack generalizing L with
  | nil =>
    unfold dedent
    exact hv.resolve_left List.not_mem_nil
  | cons top below ih =>
    unfold dedent
    simp only [ensures_ite, ensures_ok]
    refine ⟨fun hne => ?_, fun _ => h⟩
    have hend : ∀ stack, NoEnd { L.pushToken .dedent start stop with indentValues := stack } := by
      intro stack t ht
      rcases List.mem_append.1 ht with ht | ht
      · exact h.2 t ht
      · obtain rfl := List.mem_singleton.1 ht
        simp
    have hbelow : v ∈ below ∨ E .noIndent := hv.imp_left fun hmem => (List.mem_cons.1 hmem).resolve_left hne
    cases below with
    | nil =>
      unfold dedent
      exact hbelow.resolve_left List.not_mem_nil
    | cons next rest => exact ih hbelow rfl ⟨h.1.pop hL start stop, hend _⟩

/-- A stack without the indentation runs empty. -/
theorem dedent_missing {v : Nat} {start stop : Position} {stack : List Nat} (hv : v ∉ stack) (L : Lexer) :
    dedent v start stop stack L = .error .noIndent := by
  induction stack generalizing L with
  | nil => rfl
  | cons top below ih =>
    obtain ⟨hne, hbelow⟩ : v ≠ top ∧ v ∉ below := by simpa using hv
    unfold dedent
    rw [if_pos hne]
    exact ih hbelow _

theorem dedentAll_stackOk {L : Lexer} (h : StackOk L) :
    StackOk (dedentAll L.indentValues L) ∧ (dedentAll L.indentValues L).indentValues = [0] ∧
      (dedentAll L.indentValues L).cursor = L.cursor := by
  generalize hs : L.indentValues = stack
  induction stack generalizing L with
  | nil =>
    have hbottom := h.bottom
    rw [hs] at hbottom
    cases hbottom
  | cons top below ih =>
    cases below with
    | nil =>
      have hbottom := h.bottom
      rw [hs] at hbottom
      obtain rfl : top = 0 := Option.some.inj hbottom
      exact ⟨h, hs, rfl⟩
    | cons next rest => exact ih (h.pop hs L.position L.position) rfl

/-! ## The indentation of a line -/

def indentWidth (blanks : List Char) : Nat := (blanks.map fun c => if c = '\t' then tabSize else 1).sum

section
variable {program : List Char}

/-- The indentation that the next step measures: it stands in code, at the start of a line that is neither empty nor a
comment, and outside parentheses. -/
def lineIndent (program : List Char) (L : Lexer) : Option Nat :=
  if L.cursor < program.length ∧ L.mode.head? = some .normal ∧ L.position.column = 0 ∧ L.parenthesisLevel = 0 then
    match (L.rest program).dropWhile isBlank with
    | [] => none
    | c :: _ => if isSpace c || c = '#' then none else some (indentWidth ((L.rest program).takeWhile isBlank))
  else none

theorem computeIndentLevel_append {blanks s : List Char} {c : Char} (hb : ∀ b ∈ blanks, isBlank b = true)
    (hc : ¬ isBlank c = true) (value pos : Nat) :
    computeIndentLevel (blanks ++ c :: s) value pos = .ok (value + indentWidth blanks, pos + blanks.length) := by
  induction blanks generalizing value pos with
  | nil =>
    rw [List.nil_append]
    unfold computeIndentLevel
    rw [if_neg hc]
    rfl
  | cons b blanks ih =>
    rw [List.cons_append]
    unfold computeIndentLevel
    rw [if_pos (hb b List.mem_cons_self), ih fun b' hb' => hb b' (List.mem_cons_of_mem b hb')]
    simp only [indentWidth, List.map_cons, List.sum_cons, List.length_cons]
    congr 2 <;> omega

theorem computeIndentLevel_blank {blanks : List Char} (hb : ∀ b ∈ blanks, isBlank b = true) (value pos : Nat) :
    computeIndentLevel blanks value pos = .error .assertion := by
  induction blanks generalizing value pos with
  | nil => rfl
  | cons b blanks ih =>
    unfold computeIndentLevel
    rw [if_pos (hb b List.mem_cons_self)]
    exact ih (fun b' hb' => hb b' (List.mem_cons_of_mem b hb')) _ _

theorem commentScan_append {blanks s : List Char} {c : Char} (hb : ∀ b ∈ blanks, isBlank b = true)
    (hc : ¬ isBlank c = true) (hash : c ≠ '#') (n : Nat) :
    commentScan (blanks ++ c :: s) n = .ok none := by
  induction blanks generalizing n with
  | nil =>
    rw [List.nil_append]
    unfold commentScan
    rw [if_neg hc]
  | cons b blanks ih =>
    have hrest : ∀ b ∈ blanks, isBlank b = true := fun b' hb' => hb b' (List.mem_cons_of_mem b hb')
    rw [List.cons_append]
    unfold commentScan
    rw [if_pos (hb b List.mem_cons_self)]
    cases blanks with
    | nil =>
      rw [List.nil_append]
      dsimp only
      rw [if_neg hash]
      exact ih hrest _
    | cons b' blanks =>
      rw [List.cons_append]
      dsimp only
      have hb' : b' ≠ '#' := by
        intro h
        obtain rfl := h
        exact absurd (hrest '#' List.mem_cons_self) (by decide)
      rw [if_neg hb']
      exact ih hrest _

/-- What is left of the program is blank, or blanks and another character. -/
theorem rest_cases (program : List Char) (L : Lexer) :
    (∃ c s, (L.rest program).dropWhile isBlank = c :: s ∧ ¬ isBlank c = true ∧
      L.rest program = (L.rest program).takeWhile isBlank ++ c :: s) ∨
    (L.rest program).dropWhile isBlank = [] ∧ ∀ b ∈ L.rest program, isBlank b = true := by
  cases hd : (L.rest program).dropWhile isBlank with
  | nil =>
    have hall := List.takeWhile_append_dropWhile (p := isBlank) (l := L.rest program)
    rw [hd, List.append_nil] at hall
    refine .inr ⟨rfl, fun b hb => ?_⟩
    rw [← hall] at hb
    exact List.all_eq_true.1 List.all_takeWhile b hb
  | cons c s =>
    refine .inl ⟨c, s, rfl, fun hc => ?_, ?_⟩
    · have hhead := List.head?_dropWhile_not isBlank (L.rest program)
      rw [hd] at hhead
      simp [hc] at hhead
    · rw [← hd, List.takeWhile_append_dropWhile]

theorem mem_takeWhile_blank {s : List Char} : ∀ b ∈ s.takeWhile isBlank, isBlank b = true :=
  fun b hb => List.all_eq_true.1 List.all_takeWhile b hb

theorem peek_of_rest {L : Lexer} {i : Nat} {c : Char} (h : (L.rest program)[i]? = some c) : L.peek program i = .ok c := by
  rw [rest, List.getElem?_drop] at h
  unfold peek
  rw [h]

theorem advanceWhile_blank (L : Lexer) (h : L.cursor ≤ program.length) :
    L.advanceWhile program isBlank =
      .ok (L.incrementColumnPosition ((L.rest program).takeWhile isBlank).length) := by
  unfold advanceWhile
  dsimp only
  have hzero : ¬ isBlank (Char.ofNat 0) = true := by decide
  rw [if_neg fun hc => hzero hc.2, if_neg (by omega)]

/-- At blanks and a character that starts code, the readers of empty lines and comments leave the state as it is. -/
theorem skip_to_indent {L : Lexer} {c : Char} {s : List Char} (hlt : L.cursor < program.length)
    (hc : ¬ isBlank c = true) (hrest : L.rest program = (L.rest program).takeWhile isBlank ++ c :: s)
    (hspace : ¬ isSpace c = true) (hash : c ≠ '#') :
    L.tryEmptyLine program = .ok (false, L) ∧ L.tryReadComment program = .ok (false, L) := by
  have hnot : ∀ {d : Char}, L.peek program 0 = .ok d → ¬ (isSpace d && !isBlank d) = true ∧ d ≠ '#' := by
    intro d hd
    cases hb : (L.rest program).takeWhile isBlank with
    | nil =>
      rw [hb, List.nil_append] at hrest
      have hpeek := peek_of_rest (show (L.rest program)[0]? = some c by rw [hrest]; rfl)
      obtain rfl : c = d := Except.ok.inj (hpeek.symm.trans hd)
      exact ⟨by simp [hspace], hash⟩
    | cons b bs =>
      rw [hb, List.cons_append] at hrest
      have hpeek := peek_of_rest (show (L.rest program)[0]? = some b by rw [hrest]; rfl)
      obtain rfl : b = d := Except.ok.inj (hpeek.symm.trans hd)
      have hblank : isBlank b = true := mem_takeWhile_blank b (by rw [hb]; exact List.mem_cons_self)
      refine ⟨by simp [hblank], ?_⟩
      intro h
      obtain rfl := h
      exact absurd hblank (by decide)
  have hfirst : ∃ d, L.peek program 0 = .ok d := by
    refine ⟨program[L.cursor], peek_of_rest ?_⟩
    rw [rest, List.getElem?_drop]
    exact List.getElem?_eq_getElem hlt
  obtain ⟨d, hd⟩ := hfirst
  obtain ⟨hd1, hd2⟩ := hnot hd
  have hlen : L.cursor + ((L.rest program).takeWhile isBlank).length < program.length := by
    have hcount := congrArg List.length hrest
    rw [List.length_append, List.length_cons] at hcount
    have hdrop := rest_length program L
    omega
  have hnext : (L.incrementColumnPosition ((L.rest program).takeWhile isBlank).length).peek program 0 = .ok c := by
    refine peek_of_rest ?_
    show (program.drop (L.cursor + _))[0]? = some c
    rw [← List.drop_drop]
    show ((L.rest program).drop _)[0]? = some c
    rw [hrest, List.takeWhile_append_of_pos mem_takeWhile_blank, List.takeWhile_cons_of_neg hc, List.append_nil,
      List.drop_left]
    rfl
  refine ⟨?_, ?_⟩
  · have hskip := advanceWhile_blank L (Nat.le_of_lt hlt)
    have hend : ¬ program.length ≤ (L.incrementColumnPosition ((L.rest program).takeWhile isBlank).length).cursor :=
      Nat.not_le.2 hlen
    unfold tryEmptyLine
    simp only [hd, hskip, bind, Except.bind, if_neg hd1]
    rw [if_neg hend, hnext]
    simp only [if_neg hspace]
    rfl
  · unfold tryReadComment commentStart
    simp only [bind, Except.bind, if_neg (show ¬ program.length ≤ L.cursor by omega), hd, if_neg hd2]
    rw [hrest, commentScan_append mem_takeWhile_blank hc hash]
    rfl

end

/-! ## The step -/

/-- The indentation that the next step measures is that of a block that is open, or more than all of them. -/
def Meets (program : List Char) (L : Lexer) : Prop :=
  ∀ v, lineIndent program L = some v → v ∈ L.indentValues ∨ ∀ w ∈ L.indentValues, w < v

/-- The stack is in order, and once the end marker is there every block has been left. -/
structure IndentInv (program : List Char) (L : Lexer) : Prop where
  stack : StackOk L
  ended : NoEnd L ∨ program.length < L.cursor ∧ L.indentValues = [0]

section
variable {program : List Char} {E : Stop → Prop}

/-- Where indentation is read, its value is the one of the line. -/
theorem ensures_tryReadIndent (hE : Aborts E) {L : Lexer} (h : StackOk L ∧ NoEnd L)
    (hmeets : ∀ v n, computeIndentLevel (L.rest program) 0 0 = .ok (v, n) → L.position.column = 0 →
      L.parenthesisLevel = 0 → (v ∈ L.indentValues ∨ ∀ w ∈ L.indentValues, w < v) ∨ E .noIndent) :
    Ensures E (L.tryReadIndent program) fun r => StackOk r.2 ∧ NoEnd r.2 := by
  unfold tryReadIndent
  simp only [ensures_ite, ensures_pure]
  refine ⟨fun hstart => ?_, fun _ => h⟩
  obtain ⟨hcolumn, hlevel⟩ : L.position.column = 0 ∧ L.parenthesisLevel = 0 := by simpa using hstart
  rw [ensures_bind]
  cases hcompute : computeIndentLevel (L.rest program) 0 0 with
  | error e =>
    have herr : ∀ (s : List Char) (v n : Nat), computeIndentLevel s v n = .error e → e = .assertion := by
      intro s
      induction s with
      | nil => exact fun v n he => (Except.error.inj he).symm
      | cons c s ih =>
        intro v n he
        unfold computeIndentLevel at he
        split at he
        · exact ih _ _ he
        · cases he
    rw [ensures_error, herr _ _ _ hcompute]
    exact hE.assertion
  | ok r =>
    obtain ⟨v, n⟩ := r
    have hmoved := same_incrementColumnPosition L n
    have hpair : StackOk (L.incrementColumnPosition n) ∧ NoEnd (L.incrementColumnPosition n) :=
      ⟨(plain_frame.same hmoved).stackOk h.1, (plain_frame.same hmoved).noEnd h.2⟩
    rw [ensures_ok]
    dsimp only
    cases hstack : L.indentValues with
    | nil =>
      have hbottom := h.1.bottom
      rw [hstack] at hbottom
      cases hbottom
    | cons top below =>
      simp only [ensures_ite, ensures_bind, ensures_pure]
      refine ⟨fun hlt => ⟨hpair.1.push hstack hlt L.position _, ?_⟩, fun _ => ⟨fun hlt => ?_, fun _ => hpair⟩⟩
      · intro t ht
        rcases List.mem_append.1 ht with ht | ht
        · exact h.2 t ht
        · obtain rfl := List.mem_singleton.1 ht
          simp
      · refine ensures_dedent  ?_ rfl hpair
        refine (hmeets v n hcompute hcolumn hlevel).imp_left fun hor => hor.elim id fun hall => ?_
        have htop := hall top (by rw [hstack]; exact List.mem_cons_self)
        omega

theorem ensures_commentScan_none (s : List Char) (n : Nat) (hhead : ∀ t, s ≠ '#' :: t) :
    Ensures (fun _ : Stop => True) (commentScan s n) fun start =>
      start = none → ∀ t, s.dropWhile isBlank ≠ '#' :: t := by
  fun_induction commentScan s n with
  | case1 | case2 => trivial
  | case3 =>
    intro h
    cases h
  | case4 n c hblank d s hd ih =>
    rw [List.dropWhile_cons_of_pos hblank]
    refine ih fun t heq => hd (List.cons.inj heq).1
  | case5 n c s hblank =>
    intro _
    rw [List.dropWhile_cons_of_neg hblank]
    exact hhead

/-- A line that is no comment does not start with a hash behind its blanks. -/
theorem ensures_commentStart_none (L : Lexer) :
    Ensures (fun _ : Stop => True) (L.commentStart program) fun start =>
      start = none → ∀ t, (L.rest program).dropWhile isBlank ≠ '#' :: t := by
  have hE : Aborts fun _ : Stop => True := ⟨trivial, trivial, trivial⟩
  unfold commentStart
  simp only [ensures_bind, ensures_ite, ensures_pure]
  refine ⟨fun hle _ t => ?_, fun _ => ensures_peek hE fun c hc => ⟨fun _ => nofun, fun hhash => ?_⟩⟩
  · rw [rest, List.drop_of_length_le hle]
    exact nofun
  · refine ensures_commentScan_none _ _ fun t heq => hhash ?_
    have hzero : (L.rest program)[0]? = some c := by rw [rest, List.getElem?_drop]; exact hc
    rw [heq] at hzero
    exact (Option.some.inj hzero).symm

theorem ensures_tryReadComment_false (L : Lexer) :
    Ensures (fun _ : Stop => True) (L.tryReadComment program) fun r =>
      r.1 = false → r.2 = L ∧ ∀ t, (L.rest program).dropWhile isBlank ≠ '#' :: t := by
  have hE : Aborts fun _ : Stop => True := ⟨trivial, trivial, trivial⟩
  unfold tryReadComment
  rw [ensures_bind]
  refine (ensures_commentStart_none L).mono fun start hstart => ?_
  cases start with
  | none => exact fun _ => ⟨rfl, hstart rfl⟩
  | some n =>
    simp only [ensures_bind, ensures_ite, ensures_pure]
    exact (ensures_advanceWhile hE _ _).mono fun _ _ => ⟨fun _ => nofun, fun _ => nofun⟩

theorem dropWhile_of_get {L : Lexer} {c : Char}
    (hc : program[L.cursor + ((L.rest program).takeWhile isBlank).length]? = some c) :
    ∃ s, (L.rest program).dropWhile isBlank = c :: s := by
  have hsplit := List.takeWhile_append_dropWhile (p := isBlank) (l := L.rest program)
  have hdrop : (L.rest program).dropWhile isBlank =
      (L.rest program).drop ((L.rest program).takeWhile isBlank).length :=
    List.drop_left.symm.trans (by rw [hsplit])
  have hget : ((L.rest program).dropWhile isBlank)[0]? = some c := by
    rw [hdrop, rest, List.drop_drop, List.getElem?_drop]
    exact hc
  cases hcons : (L.rest program).dropWhile isBlank with
  | nil =>
    rw [hcons] at hget
    cases hget
  | cons c' s =>
    rw [hcons] at hget
    obtain rfl : c' = c := Option.some.inj hget
    exact ⟨s, rfl⟩

/-- Where the reader of empty lines has read none, nothing is left, or the state is as it was and the line goes on. -/
theorem ensures_tryEmptyLine_false (L : Lexer) (hlt : L.cursor < program.length) :
    Ensures (fun _ : Stop => True) (L.tryEmptyLine program) fun r =>
      r.1 = false → r.2.rest program = [] ∨ r.2 = L ∧
        (L.position.column ≠ 0 ∨ ∃ c s, (L.rest program).dropWhile isBlank = c :: s ∧ ¬ isSpace c = true) := by
  have hE : Aborts fun _ : Stop => True := ⟨trivial, trivial, trivial⟩
  unfold tryEmptyLine
  simp only [ensures_bind, ensures_ite, ensures_pure]
  refine ensures_peek hE fun c hc => ⟨fun _ => ⟨fun _ => nofun, fun hcolumn _ => .inr ⟨trivial, .inl hcolumn⟩⟩, fun _ => ?_⟩
  rw [advanceWhile_blank L (Nat.le_of_lt hlt), ensures_ok]
  refine ⟨fun hle _ => .inl (List.drop_of_length_le hle), fun _ => ensures_peek hE fun d hd => ⟨fun _ => nofun, ?_⟩⟩
  refine fun hspace _ => .inr ⟨rfl, .inr ?_⟩
  obtain ⟨s, hs⟩ := dropWhile_of_get hd
  exact ⟨d, s, hs, hspace⟩

/-- What is measured after both of them is the indentation of the line. -/
theorem lineIndent_eq {L M N : Lexer} {below : List Mode} {v n : Nat} (hlt : L.cursor < program.length)
    (hmode : L.mode = .normal :: below) (hempty : L.tryEmptyLine program = .ok (false, M))
    (hcomment : M.tryReadComment program = .ok (false, N))
    (hcompute : computeIndentLevel (N.rest program) 0 0 = .ok (v, n)) (hcolumn : N.position.column = 0)
    (hlevel : N.parenthesisLevel = 0) : lineIndent program L = some v := by
  obtain ⟨rfl, hhash⟩ := (ensures_tryReadComment_false M).of_ok hcomment rfl
  rcases (ensures_tryEmptyLine_false L hlt).of_ok hempty rfl with hnil | ⟨rfl, hline⟩
  · dsimp only at hnil
    rw [hnil] at hcompute
    cases hcompute
  · rcases hline with hne | ⟨c, s, hdrop, hspace⟩
    · exact absurd hcolumn hne
    · rcases rest_cases program N with ⟨c', s', hdrop', hblank, hrest⟩ | ⟨hnil, -⟩
      · obtain ⟨rfl, rfl⟩ := List.cons.inj (hdrop.symm.trans hdrop')
        rw [hrest, computeIndentLevel_append mem_takeWhile_blank hblank] at hcompute
        have hc : c ≠ '#' := by
          intro h
          obtain rfl := h
          exact hhash s hdrop
        unfold lineIndent
        rw [if_pos ⟨hlt, by rw [hmode]; rfl, hcolumn, hlevel⟩, hdrop]
        dsimp only
        rw [if_neg (by simp [hspace, hc]), ← (Prod.mk.inj (Except.ok.inj hcompute)).1, Nat.zero_add]
      · rw [hnil] at hdrop
        cases hdrop

/-- One step keeps the stack in order, if the indentation it measures is met or running empty is admitted. -/
theorem ensures_step (hE : Aborts E) {L : Lexer} (h : IndentInv program L) (hm : Meets program L ∨ E .noIndent) :
    Ensures E (L.readMoreTokensLoop program) fun r => IndentInv program r.2 := by
  unfold readMoreTokensLoop
  split
  · exact h
  next hle =>
    have hend : NoEnd L := h.ended.resolve_right fun hc => hle hc.1
    split
    next heq =>
      have hnext : StackOk { L.incrementRowPosition with cursor := L.cursor + 1 } := ⟨h.stack.1, h.stack.2, h.stack.3⟩
      obtain ⟨hstack, hzero, hcursor⟩ := dedentAll_stackOk hnext
      refine ⟨⟨hstack.1, hstack.2, ?_⟩, .inr ⟨?_, hzero⟩⟩
      · show countType .indent (_ ++ [_]) = countType .dedent (_ ++ [_]) + _
        rw [countType_append, countType_append, hstack.balance]
        simp [countType]
        rfl
      · show program.length < (dedentAll _ _).cursor
        rw [hcursor]
        show program.length < L.cursor + 1
        omega
    next hne =>
      have hlt : L.cursor < program.length := by omega
      -- whatever leaves the stack alone keeps the invariant, from any state on the way
      have hkeep : ∀ {M : Lexer}, StackOk M ∧ NoEnd M → IndentInv program M := fun hM => ⟨hM.1, .inl hM.2⟩
      have hplain : ∀ {M M' : Lexer}, StackOk M ∧ NoEnd M → Plain M M' → StackOk M' ∧ NoEnd M' :=
        fun hM h' => ⟨h'.stackOk hM.1, h'.noEnd hM.2⟩
      have hL : StackOk L ∧ NoEnd L := ⟨h.stack, hend⟩
      split
      · exact hE.undefined
      next below hmode =>
        have hmono : ∀ {x : Except Stop (Bool × Lexer)}, Ensures E x (fun r => StackOk r.2 ∧ NoEnd r.2) →
            Ensures E x fun r => IndentInv program r.2 := fun hx => hx.mono fun _ hr => hkeep hr
        refine hmono ?_
        unfold orElse
        rw [ensures_bind]
        refine (ensures_tryEmptyLine hE L).with_eq.mono fun ⟨read, M⟩ ⟨hempty, hM⟩ => ?_
        cases read with
        | true => exact hplain hL hM
        | false =>
          show Ensures E (_ >>= _) _
          rw [ensures_bind]
          refine (ensures_tryReadComment hE M).with_eq.mono fun ⟨read, N⟩ ⟨hcomment, hN⟩ => ?_
          have hpair := hplain (hplain hL hM) hN
          cases read with
          | true => exact hpair
          | false =>
            show Ensures E (_ >>= _) _
            rw [ensures_bind]
            have hindent := ensures_tryReadIndent hE hpair fun v n hcompute hcolumn hlevel =>
              hm.imp_left fun hm => by
                rw [(hM.trans hN).indentValues]
                exact hm v (lineIndent_eq hlt hmode hempty hcomment hcompute hcolumn hlevel)
            refine hindent.mono fun ⟨read, S⟩ hS => ?_
            cases read with
            | true => exact hS
            | false => exact (plain_frame.readTokens hE S).mono fun r hr => hplain hS hr
      next below hmode => exact (plain_frame.tryFstring hE hmode).mono fun r hr => hkeep (hplain hL hr)

theorem Reaches.inv {L : Lexer} (h : Reaches program L) : IndentInv program L := by
  induction h with
  | create => exact ⟨⟨rfl, by simp, rfl⟩, .inl nofun⟩
  | step _ hstep ih => exact (ensures_step (E := fun _ => True) ⟨trivial, trivial, trivial⟩ ih (.inr trivial)).of_ok hstep

/-- A line whose indentation no open block has empties the stack. -/
theorem step_noIndent {L : Lexer} (h : StackOk L) (hm : ¬ Meets program L) :
    L.readMoreTokensLoop program = .error .noIndent := by
  obtain ⟨v, hv, hmem, hlarger⟩ : ∃ v, lineIndent program L = some v ∧ v ∉ L.indentValues ∧
      ¬ ∀ w ∈ L.indentValues, w < v := by
    simpa [Meets, not_or] using hm
  unfold lineIndent at hv
  split at hv
  case isFalse => cases hv
  next hstart =>
    obtain ⟨hlt, hmode, hcolumn, hlevel⟩ := hstart
    rcases rest_cases program L with ⟨c, s, hdrop, hblank, hrest⟩ | ⟨hnil, -⟩
    · rw [hdrop] at hv
      dsimp only at hv
      split at hv
      · cases hv
      next hcode =>
        obtain ⟨hspace, hhash⟩ : ¬ isSpace c = true ∧ c ≠ '#' := by simpa using hcode
        obtain ⟨hempty, hcomment⟩ := skip_to_indent hlt hblank hrest hspace hhash
        obtain rfl : indentWidth ((L.rest program).takeWhile isBlank) = v := Option.some.inj hv
        have hcompute : computeIndentLevel (L.rest program) 0 0 =
            .ok (0 + indentWidth ((L.rest program).takeWhile isBlank), 0 + ((L.rest program).takeWhile isBlank).length) :=
          (congrArg (computeIndentLevel · 0 0) hrest).trans (computeIndentLevel_append mem_takeWhile_blank hblank 0 0)
        rw [Nat.zero_add, Nat.zero_add] at hcompute
        have hindent : L.tryReadIndent program = .error .noIndent := by
          cases hstack : L.indentValues with
          | nil =>
            have hbottom := h.bottom
            rw [hstack] at hbottom
            cases hbottom
          | cons top below =>
            have htop : indentWidth ((L.rest program).takeWhile isBlank) < top := by
              have hincreasing := h.increasing
              rw [hstack] at hmem hlarger hincreasing
              have hne : indentWidth ((L.rest program).takeWhile isBlank) ≠ top := fun heq => hmem (heq ▸ List.mem_cons_self)
              by_contra hge
              refine hlarger fun w hw => ?_
              rcases List.mem_cons.1 hw with rfl | hw
              · omega
              · have hlt := (List.pairwise_cons.1 hincreasing).1 w hw
                omega
            unfold tryReadIndent
            rw [if_pos (by simp [hcolumn, hlevel]), hcompute]
            dsimp only [bind, Except.bind]
            rw [hstack]
            show (if _ then _ else if _ then _ else _) = _
            rw [if_neg (by omega), if_pos htop]
            show (dedent _ _ _ L.indentValues _ >>= _) = _
            rw [dedent_missing hmem]
            rfl
        cases hmodes : L.mode with
        | nil =>
          rw [hmodes] at hmode
          cases hmode
        | cons mode below =>
          rw [hmodes] at hmode
          obtain rfl : mode = .normal := Option.some.inj hmode
          unfold readMoreTokensLoop
          rw [if_neg (by omega), if_neg (by omega), hmodes]
          exact (orElse_false hempty).trans <| (orElse_false hcomment).trans (orElse_error hindent)
    · rw [hnil] at hv
      cases hv

/-- The stack is not empty, starts with 0 and is strictly increasing; with the end marker the `INDENT` tokens are as many
as the `DEDENT` tokens; and the next step does not empty the stack. -/
def IndentOk (program : List Char) (L : Lexer) : Prop :=
  (L.indentValues ≠ [] ∧ L.indentValues.getLast? = some 0 ∧ L.indentValues.Pairwise (· > ·)) ∧
    ((∃ t ∈ L.tokens, t.tokenType = .endmarker) → countType .indent L.tokens = countType .dedent L.tokens) ∧
    L.readMoreTokensLoop program ≠ .error .noIndent

/-- **Indentation.** In a state that is reached the stack is in order and the blocks balance; the next step reports no
dedent to a missing column but empties the stack, exactly when it measures one. -/
theorem indentOk_iff {L : Lexer} (h : Reaches program L) : IndentOk program L ↔ Meets program L := by
  have hinv := h.inv
  refine ⟨fun hok => ?_, fun hm => ⟨⟨?_, hinv.stack.bottom, hinv.stack.increasing⟩, fun hend => ?_, fun herr => ?_⟩⟩
  · by_contra hm
    exact hok.2.2 (step_noIndent hinv.stack hm)
  · intro hnil
    have hbottom := hinv.stack.bottom
    rw [hnil] at hbottom
    cases hbottom
  · obtain ⟨t, ht, htype⟩ := hend
    rcases hinv.ended with hno | ⟨-, hzero⟩
    · exact absurd htype (hno t ht)
    · have hbalance := hinv.stack.balance
      rw [hzero] at hbalance
      exact hbalance
  · have hE : Aborts fun e : Stop => e ≠ .noIndent := ⟨by decide, by decide, by decide⟩
    exact (ensures_step hE hinv (.inl hm)).of_error herr rfl

end

/-- A program that starts at column 0 meets the one block there is. -/
theorem indentOk_create : IndentOk ['a', '\n'] {} := (indentOk_iff .create).2 fun v hv => .inl <| by
  obtain rfl : 0 = v := Option.some.inj hv
  exact List.mem_singleton.2 rfl

/-- A program whose last line returns to a column between those of the blocks that are open. -/
def misalignedProgram : List Char := ['i', 'f', ' ', 'a', ':', '\n', ' ', ' ', 'b', '\n', ' ', 'c', '\n']

theorem misaligned_dedent : ¬ ∀ L, Reaches misalignedProgram L → IndentOk misalignedProgram L := by
  intro hall
  have hrun : readTimes misalignedProgram 9 {} = .error .noIndent := by decide +kernel
  obtain ⟨M, hM, hstep⟩ := Reaches.fails .create hrun
  exact (hall M hM).2.2 hstep

end Lexer

end Pylang.Lex
