import LogicSchematic.Netlist.Bench
import LogicSchematic.Text.Blank
import LogicSchematic.Text.Split
import Mathlib

/-!
# Reading .bench files

A .bench file has a statement a line: `INPUT(A)`, `OUTPUT(Y)`, or `n2 = NAND(A, B)`; lines that
begin with `#` and blank lines say nothing. `read?` cuts a file into statements and refuses any
other line; whether the statements describe a circuit is not asked here.

What is written is read back: the text of a netlist whose nodes are driven has one statement for
each input, each output and each node that is no input, in this order, with the names they go by
(`read?_text`). No character of a name is one the format uses itself (`not_mem_marks_of_isSafe`), so
no line can be cut in the wrong place.
-/

namespace LogicSchematic.Bench

/-- A line that says something. -/
inductive Statement where
  | input (name : String)
  | output (name : String)
  /-- `name = kind(operands)` -/
  | define (name kind : String) (operands : List String)
  deriving DecidableEq, Repr

/-! ## Reading -/

/-- A word with blanks around. -/
def word (cs : List Char) : String := String.ofList (Text.trim cs)

/-- Reads `kind(operands)`, the operands with commas between. -/
def call? (cs : List Char) : Option (String × List String) := do
  let (kind, rest) ← Text.splitFirst? '(' cs
  let (operands, after) ← Text.splitFirst? ')' rest
  if after.all Text.isBlank then return (word kind, (Text.split ',' operands).map word)
  else none

/-- Reads a line that says something. -/
def statement? (line : List Char) : Option Statement :=
  match Text.splitFirst? '=' line with
  | some (name, right) =>
    (call? right).map fun (kind, operands) => .define (word name) kind operands
  | none =>
    match call? line with
    | some ("INPUT", [name]) => some (.input name)
    | some ("OUTPUT", [name]) => some (.output name)
    | _ => none

/-- Whether a line says nothing. -/
def isRemark (line : List Char) : Bool :=
  line.head? == some '#' || line.all Text.isBlank

/-- Reads lines in turn. -/
def readLines? : List (List Char) → Option (List Statement)
  | [] => some []
  | line :: lines =>
    if isRemark line then readLines? lines
    else do
      let s ← statement? line
      let ss ← readLines? lines
      return s :: ss

/-- Cuts a file into statements. -/
def read? (text : String) : Option (List Statement) :=
  readLines? (Text.lines text.toList)

/-! ## Names -/

/-- Whether a text consists of characters that may stand in a name. -/
def IsName (s : String) : Prop := ∀ c ∈ s.toList, isSafe c = true

instance (s : String) : Decidable (IsName s) := List.decidableBAll _ s.toList

/-- The characters of the format itself. -/
def marks : List Char := ['(', ')', ',', '=', '#', '\n', '\r', ' ']

theorem lt_of_isSafe {c : Char} (h : isSafe c = true) : c.toNat < 128 := by
  have hbelow : ∀ d : Char, d.toNat < 128 → c.val ≤ d.val → c.toNat < 128 :=
    fun d hd hle => Nat.lt_of_le_of_lt (UInt32.le_iff_toNat_le.mp hle) hd
  simp only [isSafe, Char.isAlphanum, Char.isAlpha, Bool.or_eq_true, beq_iff_eq] at h
  rcases h with ((hupper | hlower) | hdigit) | rfl
  · exact hbelow 'Z' (by decide) (of_decide_eq_true hupper).2
  · exact hbelow 'z' (by decide) (of_decide_eq_true ((Bool.and_eq_true _ _).mp hlower).2)
  · exact Nat.lt_of_le_of_lt (Char.isDigit_iff_toNat.mp hdigit).2 (by decide)
  · decide

theorem not_mem_marks_ascii : ∀ n < 128, isSafe (Char.ofNat n) = true →
    Char.ofNat n ∉ marks ∧ Text.isBlank (Char.ofNat n) = false := by
  decide

/-- A character of a name is none of the format. -/
theorem not_mem_marks_of_isSafe {c : Char} (h : isSafe c = true) :
    c ∉ marks ∧ Text.isBlank c = false := by
  have hall := not_mem_marks_ascii c.toNat (lt_of_isSafe h)
  rw [Char.ofNat_toNat] at hall
  exact hall h

theorem IsName.not_mem {s : String} (h : IsName s) {c : Char} (hc : c ∈ marks) : c ∉ s.toList :=
  fun hmem => (not_mem_marks_of_isSafe (h c hmem)).1 hc

theorem IsName.isBlank {s : String} (h : IsName s) : ∀ c ∈ s.toList, Text.isBlank c = false :=
  fun c hc => (not_mem_marks_of_isSafe (h c hc)).2

theorem isName_safeName (label : String) : IsName (safeName label) :=
  fun _ => isSafe_of_mem_safeName

theorem isName_nodeName (id : NodeId) : IsName (nodeName id) := by
  have hprefix : IsName "n" := by decide
  intro c hc
  rw [nodeName, String.toList_append, List.mem_append] at hc
  rcases hc with hc | hc
  · exact hprefix c hc
  · have hdigit : c.isDigit = true := by
      rw [Nat.repr, String.toList_ofList] at hc
      exact Nat.isDigit_of_mem_toDigits (by decide) (by decide) hc
    simp [isSafe, Char.isAlphanum, hdigit]

theorem isName_signalName (net : Netlist) (id : NodeId) : IsName (signalName net id) := by
  unfold signalName
  split
  next => exact isName_safeName _
  next => exact isName_nodeName id

theorem isName_gateName (g : Gate) : IsName (gateName g) := by
  cases g <;> decide

/-- A name is read as itself, with any blanks around. -/
theorem IsName.word {s : String} (h : IsName s) (before after : List Char)
    (hbefore : ∀ c ∈ before, Text.isBlank c = true) (hafter : ∀ c ∈ after, Text.isBlank c = true) :
    word (before ++ s.toList ++ after) = s := by
  rw [Bench.word, Text.trim_append before after hbefore h.isBlank hafter, String.ofList_toList]

/-! ## Written lines -/

/-- A call as it is written, without the line feed. -/
def callLine (kind : String) (operands : List String) : List Char :=
  kind.toList ++ '(' :: ([',', ' '].intercalate (operands.map String.toList) ++ [')'])

/-- The line of a statement. -/
def Statement.line : Statement → List Char
  | .input name => callLine "INPUT" [name]
  | .output name => callLine "OUTPUT" [name]
  | .define name kind operands => name.toList ++ ' ' :: '=' :: ' ' :: callLine kind operands

/-- Whether a statement can be written: all in it are names, and a call has operands. -/
def Statement.Named : Statement → Prop
  | .input name | .output name => IsName name
  | .define name kind operands =>
    IsName name ∧ IsName kind ∧ (∀ s ∈ operands, IsName s) ∧ operands ≠ []

variable {kind name : String} {operands : List String} {s : Statement}

theorem toList_call (kind : String) (operands : List String) :
    (call kind operands).toList = callLine kind operands ++ ['\n'] := by
  simp [call, callLine, String.toList_intercalate]

theorem mem_intercalate {c : Char} {sep : List Char} {pieces : List (List Char)}
    (h : c ∈ sep.intercalate pieces) : c ∈ sep ∨ ∃ piece ∈ pieces, c ∈ piece := by
  induction pieces with
  | nil => simp at h
  | cons piece pieces ih =>
    cases pieces with
    | nil => exact .inr ⟨piece, by simp, by simpa using h⟩
    | cons piece' pieces =>
      rw [List.intercalate_cons_cons, List.mem_append, List.mem_append] at h
      rcases h with (h | h) | h
      · exact .inr ⟨piece, by simp, h⟩
      · exact .inl h
      · obtain h | ⟨q, hq, h⟩ := ih h
        · exact .inl h
        · exact .inr ⟨q, List.mem_cons_of_mem _ hq, h⟩

theorem mem_callLine (hkind : IsName kind) (hoperands : ∀ s ∈ operands, IsName s) {c : Char}
    (h : c ∈ callLine kind operands) : isSafe c = true ∨ c ∈ ['(', ')', ',', ' '] := by
  simp only [callLine, List.mem_append, List.mem_cons, List.not_mem_nil, or_false] at h
  rcases h with h | rfl | h | rfl
  · exact .inl (hkind c h)
  · simp
  · obtain h | ⟨piece, hpiece, h⟩ := mem_intercalate h
    · right
      revert h
      simp +contextual
    · obtain ⟨s, hs, rfl⟩ := List.mem_map.mp hpiece
      exact .inl (hoperands s hs c h)
  · simp

/-- A written line has the characters of names and a few others. -/
theorem Statement.Named.mem_line (h : s.Named) {c : Char} (hc : c ∈ s.line) :
    isSafe c = true ∨ c ∈ ['(', ')', ',', ' ', '='] := by
  have hcall : ∀ {kind : String} {operands : List String}, IsName kind →
      (∀ s ∈ operands, IsName s) → c ∈ callLine kind operands →
      isSafe c = true ∨ c ∈ ['(', ')', ',', ' ', '='] := by
    intro kind operands hkind hoperands hc
    exact (mem_callLine hkind hoperands hc).imp_right (List.mem_append_left ['='])
  cases s with
  | input name =>
    have hname : ∀ s ∈ [name], IsName s := List.forall_mem_singleton.mpr h
    exact hcall (by decide) hname hc
  | output name =>
    have hname : ∀ s ∈ [name], IsName s := List.forall_mem_singleton.mpr h
    exact hcall (by decide) hname hc
  | define name kind operands =>
    obtain ⟨hname, hkind, hoperands, -⟩ := h
    simp only [line, List.mem_append, List.mem_cons] at hc
    rcases hc with hc | rfl | rfl | rfl | hc
    · exact .inl (hname c hc)
    · simp
    · simp
    · simp
    · exact hcall hkind hoperands hc

/-- A written line is one line, and no remark. -/
theorem Statement.Named.not_mem_line (h : s.Named) {c : Char} (hc : c ∈ ['#', '\n', '\r']) :
    c ∉ s.line := by
  intro hmem
  have hline := h.mem_line hmem
  simp only [List.mem_cons, List.not_mem_nil, or_false] at hc
  rcases hc with rfl | rfl | rfl <;> exact absurd hline (by decide)

/-! ## Written lines are read back -/

theorem map_word_split_space (cs : List Char) :
    (Text.split ',' (' ' :: cs)).map word = (Text.split ',' cs).map word := by
  have hspace : ∀ piece, word (' ' :: piece) = word piece := by
    intro piece
    rw [word, word, Text.trim, List.dropWhile_cons_of_pos (by decide)]
    rfl
  have hne := Text.split_ne_nil ',' cs
  cases hsplit : Text.split ',' cs with
  | nil => exact absurd hsplit hne
  | cons piece pieces => simp [Text.split, hsplit, hspace]

theorem map_word_split (hne : operands ≠ []) (hoperands : ∀ s ∈ operands, IsName s) :
    (Text.split ',' ([',', ' '].intercalate (operands.map String.toList))).map word =
      operands := by
  induction operands with
  | nil => exact absurd rfl hne
  | cons s operands ih =>
    rw [List.forall_mem_cons] at hoperands
    obtain ⟨hs, hoperands⟩ := hoperands
    have hsplit : Text.split ',' s.toList = [s.toList] :=
      Text.split_of_not_mem (hs.not_mem (by decide))
    have hword : word s.toList = s := by
      simpa using hs.word [] [] (by simp) (by simp)
    cases operands with
    | nil => simp [hsplit, hword]
    | cons s' operands =>
      have ih := ih (List.cons_ne_nil s' operands) hoperands
      rw [List.map_cons, List.map_cons, List.intercalate_cons_cons, List.append_assoc,
        List.cons_append, Text.split_append_cons, List.map_append, List.singleton_append,
        map_word_split_space, ← List.map_cons, ih, hsplit, List.map_singleton, hword,
        List.singleton_append]

theorem call?_callLine (hkind : IsName kind) (hne : operands ≠ [])
    (hoperands : ∀ s ∈ operands, IsName s) (before : List Char)
    (hbefore : ∀ c ∈ before, Text.isBlank c = true) :
    call? (before ++ callLine kind operands) = some (kind, operands) := by
  have hopen : '(' ∉ before ++ kind.toList := by
    rw [List.mem_append, not_or]
    exact ⟨fun hmem => absurd (hbefore _ hmem) (by decide), hkind.not_mem (by decide)⟩
  have hclose : ')' ∉ [',', ' '].intercalate (operands.map String.toList) := by
    intro hmem
    obtain hmem | ⟨piece, hpiece, hmem⟩ := mem_intercalate hmem
    · revert hmem
      decide
    · obtain ⟨s, hs, rfl⟩ := List.mem_map.mp hpiece
      exact (hoperands s hs).not_mem (by decide) hmem
  have hword : word (before ++ kind.toList) = kind := by
    simpa using hkind.word before [] hbefore (by simp)
  rw [call?, callLine, ← List.append_assoc, Text.splitFirst?_append hopen]
  simp only [Option.bind_eq_bind, Option.bind_some, Text.splitFirst?_append hclose, List.all_nil,
    if_true, hword, map_word_split hne hoperands]
  rfl

theorem splitFirst?_callLine (hkind : IsName kind) (hoperands : ∀ s ∈ operands, IsName s) :
    Text.splitFirst? '=' (callLine kind operands) = none :=
  Text.splitFirst?_of_not_mem fun hmem => absurd (mem_callLine hkind hoperands hmem) (by decide)

/-- A line that is a call and no definition. -/
theorem call?_of_isName (hkind : IsName kind) (hname : IsName name) :
    call? (callLine kind [name]) = some (kind, [name]) ∧
      Text.splitFirst? '=' (callLine kind [name]) = none := by
  have hoperands : ∀ s ∈ [name], IsName s := List.forall_mem_singleton.mpr hname
  have hcall : call? ([] ++ callLine kind [name]) = some (kind, [name]) :=
    call?_callLine hkind (by simp) hoperands [] (by simp)
  exact ⟨hcall, splitFirst?_callLine hkind hoperands⟩

/-- A written line is read as its statement. -/
theorem statement?_line (h : s.Named) : statement? s.line = some s := by
  cases s with
  | input name =>
    obtain ⟨hcall, hequal⟩ := call?_of_isName (by decide : IsName "INPUT") h
    rw [Statement.line, statement?, hequal]
    dsimp only
    rw [hcall]
    rfl
  | output name =>
    obtain ⟨hcall, hequal⟩ := call?_of_isName (by decide : IsName "OUTPUT") h
    rw [Statement.line, statement?, hequal]
    dsimp only
    rw [hcall]
    rfl
  | define name kind operands =>
    obtain ⟨hname, hkind, hoperands, hne⟩ := h
    have hblank : ∀ c ∈ [' '], Text.isBlank c = true := List.forall_mem_singleton.mpr (by decide)
    have hequal : '=' ∉ name.toList ++ [' '] := by
      simpa using hname.not_mem (by decide)
    have hcut : name.toList ++ ' ' :: '=' :: ' ' :: callLine kind operands =
        (name.toList ++ [' ']) ++ '=' :: ([' '] ++ callLine kind operands) := by simp
    have hword : word (name.toList ++ [' ']) = name := by
      simpa using hname.word [] [' '] (by simp) hblank
    rw [Statement.line, hcut, statement?, Text.splitFirst?_append hequal]
    dsimp only
    rw [call?_callLine hkind hne hoperands [' '] hblank, hword]
    rfl

theorem isRemark_line (h : s.Named) : isRemark s.line = false := by
  have hmark : s.line.head? ≠ some '#' := fun hhead =>
    h.not_mem_line (by decide) (List.mem_of_head? hhead)
  have hparen : '(' ∈ s.line := by
    cases s <;> simp [Statement.line, callLine]
  have hblank : s.line.all Text.isBlank = false := by
    rw [List.all_eq_false]
    exact ⟨'(', hparen, by decide⟩
  simp [isRemark, hmark, hblank]

theorem readLines?_append {ss : List Statement} (hss : ∀ s ∈ ss, s.Named)
    (lines : List (List Char)) :
    readLines? (ss.map Statement.line ++ lines) = (readLines? lines).map (ss ++ ·) := by
  induction ss with
  | nil => simp
  | cons s ss ih =>
    rw [List.forall_mem_cons] at hss
    simp only [List.map_cons, List.cons_append, readLines?, isRemark_line hss.1,
      statement?_line hss.1, ih hss.2]
    cases readLines? lines <;> rfl

/-! ## Written files -/

theorem lines_flatMap {ls : List (List Char)} (h : ∀ l ∈ ls, '\n' ∉ l ∧ '\r' ∉ l) :
    Text.lines (ls.flatMap (· ++ ['\n'])) = ls := by
  induction ls with
  | nil => rfl
  | cons l ls ih =>
    rw [List.forall_mem_cons] at h
    rw [List.flatMap_cons, List.append_assoc, List.singleton_append,
      Text.lines_append_newline h.1.1 h.1.2, ih h.2]

/-- What a node that is no input defines. -/
def definition? (net : Netlist) (id : NodeId) (n : Node) : Option Statement :=
  let drivers := n.children.map (signalName net)
  match n.kind with
  | .input => none
  | .gate g => some (.define (nodeName id) (gateName g) drivers)
  | .output => some (.define (outputName n) "BUF" drivers)

/-- The statements about the inputs. -/
def inputs (net : Netlist) : List Statement :=
  net.inputs.toList.map fun id => .input (signalName net id)

/-- The statements about the outputs. -/
def outputs (net : Netlist) : List Statement :=
  (net.outputs.toList.filterMap (net.nodes[·]?)).map fun n => .output (outputName n)

/-- The statements about the other signals. -/
def definitions (net : Netlist) : List Statement :=
  net.nodes.toList.zipIdx.filterMap fun (n, id) => definition? net id n

/-- The statements of a netlist, in the order of its file. -/
def statements (net : Netlist) : List Statement :=
  inputs net ++ outputs net ++ definitions net

variable {net : Netlist}

theorem named_inputs : ∀ s ∈ inputs net, s.Named := by
  intro s hs
  obtain ⟨id, -, rfl⟩ := List.mem_map.mp hs
  exact isName_signalName net id

theorem named_outputs : ∀ s ∈ outputs net, s.Named := by
  intro s hs
  obtain ⟨n, -, rfl⟩ := List.mem_map.mp hs
  exact isName_safeName _

theorem named_definitions (hdriven : ∀ n ∈ net.nodes, n.kind ≠ .input → n.children ≠ []) :
    ∀ s ∈ definitions net, s.Named := by
  intro s hs
  obtain ⟨⟨n, id⟩, hmem, hs⟩ := List.mem_filterMap.mp hs
  have hn : n ∈ net.nodes := Array.mem_toList_iff.mp (List.fst_mem_of_mem_zipIdx hmem)
  have hdrivers : ∀ s ∈ n.children.map (signalName net), IsName s := by
    intro s hs
    obtain ⟨child, -, rfl⟩ := List.mem_map.mp hs
    exact isName_signalName net child
  have hne : n.kind ≠ .input → n.children.map (signalName net) ≠ [] :=
    fun hkind => by simpa using hdriven n hn hkind
  simp only [definition?] at hs
  split at hs
  next => cases hs
  next g hkind =>
    cases hs
    exact ⟨isName_nodeName id, isName_gateName g, hdrivers, hne (by simp [hkind])⟩
  next hkind =>
    cases hs
    exact ⟨isName_safeName _, by decide, hdrivers, hne (by simp [hkind])⟩

/-- A node is written as the line of what it defines. -/
theorem toList_definition (net : Netlist) (id : NodeId) (n : Node) :
    (definition net id n).toList =
      (definition? net id n).toList.flatMap fun s => s.line ++ ['\n'] := by
  cases hkind : n.kind <;> simp [definition, definition?, hkind, toList_call, Statement.line]

/-- The lines of a file. -/
def fileLines (net : Netlist) : List (List Char) :=
  ["# .bench (ISCAS) file".toList, "# Generated by gatemap".toList] ++
    (inputs net).map Statement.line ++ [[]] ++ (outputs net).map Statement.line ++ [[]] ++
    (definitions net).map Statement.line

theorem toList_sections (header blank : String) (inputs outputs definitions : List String) :
    (header ++ String.join inputs ++ blank ++ String.join outputs ++ blank ++
      String.join definitions).toList = header.toList ++ inputs.flatMap String.toList ++
      blank.toList ++ outputs.flatMap String.toList ++ blank.toList ++
      definitions.flatMap String.toList := by
  simp only [String.toList_append, String.toList_join]

theorem toList_text (net : Netlist) :
    (text net).toList = (fileLines net).flatMap (· ++ ['\n']) := by
  have hinputs : (net.inputs.toList.map fun id => call "INPUT" [signalName net id]).flatMap
      String.toList = ((inputs net).map Statement.line).flatMap (· ++ ['\n']) := by
    rw [inputs, List.map_map, List.flatMap_map, List.flatMap_map]
    exact List.flatMap_congr fun id _ => toList_call _ _
  have houtputs : ((net.outputs.toList.filterMap (net.nodes[·]?)).map fun n =>
      call "OUTPUT" [outputName n]).flatMap String.toList =
      ((outputs net).map Statement.line).flatMap (· ++ ['\n']) := by
    rw [outputs, List.map_map, List.flatMap_map, List.flatMap_map]
    exact List.flatMap_congr fun n _ => toList_call _ _
  have hdefinitions : (net.nodes.toList.zipIdx.map fun (n, id) => definition net id n).flatMap
      String.toList = ((definitions net).map Statement.line).flatMap (· ++ ['\n']) := by
    rw [definitions, List.filterMap_eq_flatMap_toList, List.flatMap_map, List.flatMap_map,
      List.flatMap_assoc]
    exact List.flatMap_congr fun p _ => toList_definition net p.2 p.1
  have hheader : "# .bench (ISCAS) file\n# Generated by gatemap\n".toList =
      ["# .bench (ISCAS) file".toList, "# Generated by gatemap".toList].flatMap (· ++ ['\n']) := by
    decide
  have hblank : "\n".toList = [([] : List Char)].flatMap (· ++ ['\n']) := by
    decide
  unfold text
  rw [toList_sections, hinputs, houtputs, hdefinitions, hheader, hblank]
  simp only [fileLines, List.flatMap_append]

theorem not_mem_of_mem_fileLines
    (hdriven : ∀ n ∈ net.nodes, n.kind ≠ .input → n.children ≠ []) :
    ∀ l ∈ fileLines net, '\n' ∉ l ∧ '\r' ∉ l := by
  have hwritten : ∀ {ss : List Statement}, (∀ s ∈ ss, s.Named) →
      ∀ l ∈ ss.map Statement.line, '\n' ∉ l ∧ '\r' ∉ l := by
    intro ss hss l hl
    obtain ⟨s, hs, rfl⟩ := List.mem_map.mp hl
    exact ⟨(hss s hs).not_mem_line (by decide), (hss s hs).not_mem_line (by decide)⟩
  simp only [fileLines, List.forall_mem_append]
  exact ⟨⟨⟨⟨⟨by decide, hwritten named_inputs⟩, by decide⟩, hwritten named_outputs⟩, by decide⟩,
    hwritten (named_definitions hdriven)⟩

theorem readLines?_remark {line : List Char} (h : isRemark line = true) (lines : List (List Char)) :
    readLines? (line :: lines) = readLines? lines :=
  if_pos h

/-- The text of a netlist is cut into its statements. -/
theorem read?_text (hdriven : ∀ n ∈ net.nodes, n.kind ≠ .input → n.children ≠ []) :
    read? (text net) = some (statements net) := by
  rw [read?, toList_text, lines_flatMap (not_mem_of_mem_fileLines hdriven), fileLines]
  simp only [List.append_assoc, List.cons_append, List.nil_append]
  rw [readLines?_remark (by decide), readLines?_remark (by decide), readLines?_append named_inputs,
    readLines?_remark (by decide), readLines?_append named_outputs, readLines?_remark (by decide),
    ← List.append_nil ((definitions net).map _), readLines?_append (named_definitions hdriven)]
  simp [readLines?, statements]

end LogicSchematic.Bench
