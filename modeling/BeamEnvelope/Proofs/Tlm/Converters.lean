import BeamEnvelope.Proofs.Tlm.Conversion

/-!
# Converters

A converter counts the records of each kind and collects the names of the elements while it writes.
It starts afresh with every file, so what it holds behind a file is told by that file alone: the
names and counts of the records on the joined lines that were accepted. A line that is refused
changes nothing, and is reported by the number of the first line that it is joined from.
-/

namespace BeamEnvelope.Tlm

open Text

/-- Counters and names, kept in place. -/
structure Converter where
  /-- How many records of a kind have been numbered. -/
  counters : Kind → Nat := fun _ => 0
  beamline : List String := []

namespace Converter

/-- The final name of a record, which is counted. -/
def number (r : Record) : EStateM Cause Converter String := do
  if r.kind.isNumbered then
    modify fun c =>
      { c with counters := Function.update c.counters r.kind (c.counters r.kind + 1) }
    return r.name ++ "_" ++ toString ((← get).counters r.kind)
  else return r.name

def convertLine (line : List Char) : EStateM Cause Converter String :=
  match Text.trim line with
  | [] => return ""
  | '#' :: comment => return String.ofList ('#' :: comment)
  | trimmed => do
    let r ← match Record.ofWords ((Text.words trimmed).map String.ofList) with
      | .ok r => pure r
      | .error cause => throw cause
    let name ← number r
    let definition := r.definition name
    modify fun c => { c with beamline := c.beamline ++ [name] }
    return definition

end Converter

structure Session where
  converter : Converter
  text : String

namespace Session

def write (text : String) : EStateM Failure Session Unit :=
  modify fun s => { s with text := s.text ++ text }

def convertLine (line : Joined) : EStateM Failure Session Unit := do
  match line.text? with
  | none => throw .unreadable
  | some text =>
    let s ← get
    match (Converter.convertLine text).run s.converter with
    | .ok written converter =>
      set { s with converter }
      write (written ++ "\n")
    | .error cause converter =>
      set { s with converter }
      throw (.refused line.number cause)

def finish : EStateM Failure Session Unit := do
  let names := (← get).converter.beamline
  if names.isEmpty then throw .noElements
  write (Glps.lineStatement Tlm.beamline names ++ "\nUSE: " ++ Tlm.beamline ++ ";\n")

def convertLines (lines : List Joined) : EStateM Failure Session Unit := do
  lines.forM convertLine
  finish

def convert (bytes : List UInt8) : EStateM Failure Session Unit := do
  modify fun s => { s with converter := {} }
  write head
  convertLines (readLines bytes)

end Session

/-- A file is translated by a converter that may have been used before. It is given back. -/
def Converter.translate (c : Converter) (bytes : List UInt8) : Conversion × Converter :=
  match (Session.convert bytes).run ⟨c, ""⟩ with
  | .ok _ s => (⟨s.text, s.converter.beamline, none⟩, s.converter)
  | .error failure s => (⟨s.text, s.converter.beamline, some failure⟩, s.converter)

variable {accepted final : Accepted} {text : List Char} {lines : List Joined} {bytes : List UInt8}
  {r : Record} {rs : List Record} {cause : Cause} {k : Kind}

/-- What stands on a line: a text that is copied, a record, or a record that is refused. -/
def content (text : List Char) : Except Cause (String ⊕ Record) :=
  match Text.trim text with
  | [] => .ok (.inl "")
  | '#' :: comment => .ok (.inl (String.ofList ('#' :: comment)))
  | _ => (Record.ofWords (wordsOn text)).map .inr

theorem record?_eq_content (text : List Char) :
    record? text = (content text).toOption.bind Sum.getRight? := by
  unfold record? content wordsOn
  cases Text.trim text with
  | nil => rfl
  | cons c rest =>
    by_cases hc : c = '#'
    · subst hc
      rfl
    · simp only [List.cons.injEq, hc, false_and, imp_self, implies_true]
      cases Record.ofWords ((Text.words (c :: rest)).map String.ofList) <;> rfl

theorem writeLine_eq_content (accepted : Accepted) (text : List Char) :
    writeLine accepted text = (content text).map (Sum.elim (fun s => (s, accepted)) fun r =>
      (r.definition (finalName accepted r), (r.kind, finalName accepted r) :: accepted)) := by
  unfold writeLine content wordsOn
  cases Text.trim text with
  | nil => rfl
  | cons c rest =>
    by_cases hc : c = '#'
    · subst hc
      rfl
    · simp only [List.cons.injEq, hc, false_and, imp_self, implies_true]
      cases Record.ofWords ((Text.words (c :: rest)).map String.ofList) <;> rfl

theorem content_eq_record (h : content text = .ok (.inr r)) :
    Record.ofWords (wordsOn text) = .ok r := by
  unfold content at h
  split at h
  · cases h
  · cases h
  · cases hwords : Record.ofWords (wordsOn text) with
    | error cause => rw [hwords] at h; cases h
    | ok r' => rw [hwords] at h; cases h; rfl

/-- What is written for a line that is accepted: what is copied, or the definition of a record. -/
theorem writeLine_eq_ok {written : String} {more : Accepted}
    (h : writeLine accepted text = .ok (written, more)) :
    (content text = .ok (.inl written) ∧ more = accepted) ∨
    ∃ r, content text = .ok (.inr r) ∧ written = r.definition (finalName accepted r) ∧
      more = (r.kind, finalName accepted r) :: accepted := by
  rw [writeLine_eq_content] at h
  obtain ⟨found, hfound, h⟩ := map_eq_ok.1 h
  cases found with
  | inl copied =>
    cases h
    exact .inl ⟨hfound, rfl⟩
  | inr r =>
    cases h
    exact .inr ⟨r, hfound, rfl, rfl⟩

theorem writeLine_eq_error (h : writeLine accepted text = .error cause) :
    content text = .error cause := by
  rw [writeLine_eq_content] at h
  cases hcontent : content text with
  | error cause' =>
    rw [hcontent] at h
    cases h
    rfl
  | ok found =>
    rw [hcontent] at h
    cases h

namespace Converter

def after (c : Converter) (r : Record) : String × Converter :=
  if r.kind.isNumbered then
    let count := c.counters r.kind + 1
    let name := r.name ++ "_" ++ toString count
    (name, ⟨Function.update c.counters r.kind count, c.beamline ++ [name]⟩)
  else (r.name, { c with beamline := c.beamline ++ [r.name] })

/-- A line that is refused changes neither the counters nor the names. -/
theorem run_convertLine (c : Converter) (text : List Char) :
    (convertLine text).run c = match content text with
      | .error cause => .error cause c
      | .ok (.inl copied) => .ok copied c
      | .ok (.inr r) => .ok (r.definition (c.after r).1) (c.after r).2 := by
  unfold convertLine content wordsOn
  cases Text.trim text with
  | nil => rfl
  | cons d rest =>
    by_cases hd : d = '#'
    · subst hd
      rfl
    · simp only [List.cons.injEq, hd, false_and, imp_self, implies_true]
      cases Record.ofWords ((Text.words (d :: rest)).map String.ofList) with
      | error cause => rfl
      | ok r =>
        cases hkind : r.kind.isNumbered <;> simp [number, after, hkind, Except.map]

/-- The converter that has accepted records since it was fresh. -/
def holding (accepted : Accepted) : Converter where
  counters k := if k.isNumbered then accepted.countP (·.1 = k) else 0
  beamline := namesOf accepted

theorem holding_nil : holding [] = {} := by
  simp [holding, namesOf]

theorem after_holding (accepted : Accepted) (r : Record) : (holding accepted).after r =
    (finalName accepted r, holding ((r.kind, finalName accepted r) :: accepted)) := by
  unfold after finalName
  cases hkind : r.kind.isNumbered with
  | true =>
    simp only [holding, hkind, if_true, namesOf_cons, List.countP_cons, Prod.mk.injEq, true_and,
      mk.injEq, and_true]
    funext k
    rcases eq_or_ne k r.kind with rfl | hk
    · simp [hkind]
    · simp [hk, hk.symm]
  | false =>
    simp only [holding, hkind, Bool.false_eq_true, if_false, namesOf_cons, List.countP_cons,
      Prod.mk.injEq, true_and, mk.injEq, and_true]
    funext k
    rcases eq_or_ne k r.kind with rfl | hk
    · simp [hkind]
    · simp [hk.symm]

/-- On a converter that holds what has been accepted, a line is converted as it is apart from it. -/
theorem run_convertLine_holding (accepted : Accepted) (text : List Char) :
    (convertLine text).run (holding accepted) = match writeLine accepted text with
      | .error cause => .error cause (holding accepted)
      | .ok (written, more) => .ok written (holding more) := by
  rw [run_convertLine, writeLine_eq_content]
  cases content text with
  | error cause => rfl
  | ok found =>
    cases found with
    | inl copied => rfl
    | inr r =>
      dsimp only
      rw [after_holding]
      rfl

end Converter

namespace Session

theorem run_convertLine (accepted : Accepted) (text : String) (line : Joined) :
    (convertLine line).run ⟨.holding accepted, text⟩ = match line.text? with
      | none => .error .unreadable ⟨.holding accepted, text⟩
      | some cs => match writeLine accepted cs with
        | .error cause => .error (.refused line.number cause) ⟨.holding accepted, text⟩
        | .ok (written, more) => .ok () ⟨.holding more, text ++ (written ++ "\n")⟩ := by
  unfold convertLine
  cases line.text? with
  | none => rfl
  | some cs =>
    have hline := Converter.run_convertLine_holding accepted cs
    cases hwrite : writeLine accepted cs with
    | error cause =>
      rw [hwrite] at hline
      simp [hline, hwrite]
    | ok result =>
      rw [hwrite] at hline
      simp [hline, hwrite, write]

section Lines

variable {s s' : Session} {line : Joined} {failure : Failure}

theorem run_convertLines_of_ok (h : (convertLine line).run s = .ok () s') :
    (convertLines (line :: lines)).run s = (convertLines lines).run s' := by
  simp [convertLines, h]

theorem run_convertLines_of_error (h : (convertLine line).run s = .error failure s') :
    (convertLines (line :: lines)).run s = .error failure s' := by
  simp [convertLines, h]

end Lines

/-- What ends a file that is converted. -/
def closing (names : List String) : String :=
  Glps.lineStatement Tlm.beamline names ++ "\nUSE: " ++ Tlm.beamline ++ ";\n"

theorem run_convertLines (accepted : Accepted) (text : String) (lines : List Joined) :
    (convertLines lines).run ⟨.holding accepted, text⟩ =
      let (written, final, failure?) := writeLines accepted lines
      let text := text ++ String.join (written.map (· ++ "\n"))
      match failure? with
      | none => .ok () ⟨.holding final, text ++ closing (namesOf final)⟩
      | some failure => .error failure ⟨.holding final, text⟩ := by
  induction lines generalizing accepted text with
  | nil =>
    cases accepted with
    | nil => simp [convertLines, finish, writeLines, Converter.holding, namesOf]
    | cons a accepted =>
      simp [convertLines, finish, writeLines, Converter.holding, namesOf, write, closing]
  | cons line lines ih =>
    have hline := run_convertLine accepted text line
    rw [writeLines]
    cases htext : line.text? with
    | none =>
      rw [htext] at hline
      rw [run_convertLines_of_error hline]
      simp
    | some cs =>
      rw [htext] at hline
      dsimp only at hline ⊢
      cases hwrite : writeLine accepted cs with
      | error cause =>
        rw [hwrite] at hline
        rw [run_convertLines_of_error hline]
        simp
      | ok result =>
        rw [hwrite] at hline
        rw [run_convertLines_of_ok hline, ih]
        simp only [List.map_cons, String.join_cons, String.append_assoc]

end Session

/-- Whatever a converter was used for before, it translates a file as it is converted, and then
holds the records that have been accepted. -/
theorem Converter.translate_eq (c : Converter) (bytes : List UInt8) : c.translate bytes =
    (convert bytes, holding (writeLines [] (readLines bytes)).2.1) := by
  have hrun : (Session.convert bytes).run ⟨c, ""⟩ =
      (Session.convertLines (readLines bytes)).run ⟨holding [], head⟩ := by
    rw [holding_nil]
    rfl
  rw [translate, hrun, Session.run_convertLines, convert]
  generalize writeLines [] (readLines bytes) = result
  obtain ⟨written, final, failure?⟩ := result
  cases failure? with
  | none => simp [Session.closing, holding, namesOf, String.append_assoc]
  | some failure => rfl

def accept (accepted : Accepted) (r : Record) : Accepted :=
  (r.kind, finalName accepted r) :: accepted

/-- The final names of records: but for quadrupoles and cavities, each has its place among the
records of its kind behind it. -/
def numberedNames (rs : List Record) : List String :=
  rs.mapIdx fun i r =>
    if r.kind = .quadrupole ∨ r.kind = .cavity then r.name
    else r.name ++ "_" ++ toString ((rs.take (i + 1)).countP (·.kind = r.kind))

theorem isNumbered_eq_false_iff : k.isNumbered = false ↔ k = .quadrupole ∨ k = .cavity := by
  cases k <;> decide

theorem countP_accept (rs : List Record) (k : Kind) :
    (rs.foldl accept []).countP (·.1 = k) = rs.countP (·.kind = k) := by
  induction rs using List.reverseRecOn with
  | nil => rfl
  | append_singleton rs r ih =>
    rw [List.foldl_append, List.foldl_cons, List.foldl_nil, accept, List.countP_cons, ih,
      List.countP_append, List.countP_singleton]

theorem numberedNames_concat (rs : List Record) (r : Record) :
    numberedNames (rs ++ [r]) = numberedNames rs ++ [finalName (rs.foldl accept []) r] := by
  have hlast : finalName (rs.foldl accept []) r = if r.kind = .quadrupole ∨ r.kind = .cavity then
      r.name else r.name ++ "_" ++ toString ((rs ++ [r]).countP (·.kind = r.kind)) := by
    rw [finalName, countP_accept, List.countP_append, List.countP_singleton]
    by_cases hkind : r.kind = .quadrupole ∨ r.kind = .cavity
    · rw [if_pos hkind, isNumbered_eq_false_iff.2 hkind]
      rfl
    · rw [if_neg hkind, Bool.eq_true_of_not_eq_false (isNumbered_eq_false_iff.not.2 hkind)]
      simp
  rw [hlast, numberedNames, numberedNames, List.mapIdx_append]
  congr 1
  · refine List.ext_getElem (by simp) fun i h h' => ?_
    have hi : i < rs.length := by simpa using h'
    simp [List.take_append_of_le_length (Nat.succ_le_of_lt hi)]
  · have hall : (rs ++ [r]).take (rs.length + 1) = rs ++ [r] :=
      List.take_of_length_le (by rw [List.length_append, List.length_singleton])
    rw [List.mapIdx_singleton, Nat.zero_add, hall]

theorem namesOf_accept (rs : List Record) :
    namesOf (rs.foldl accept []) = numberedNames rs := by
  induction rs using List.reverseRecOn with
  | nil => rfl
  | append_singleton rs r ih =>
    rw [List.foldl_append, List.foldl_cons, List.foldl_nil, accept, namesOf_cons, ih,
      numberedNames_concat]

theorem counters_holding (rs : List Record) (k : Kind) :
    (Converter.holding (rs.foldl accept [])).counters k =
      if k = .quadrupole ∨ k = .cavity then 0 else rs.countP (·.kind = k) := by
  change (if k.isNumbered then (rs.foldl accept []).countP (·.1 = k) else 0) = _
  rw [countP_accept]
  by_cases hk : k = .quadrupole ∨ k = .cavity
  · rw [if_pos hk, isNumbered_eq_false_iff.2 hk]
    rfl
  · rw [if_neg hk, Bool.eq_true_of_not_eq_false (isNumbered_eq_false_iff.not.2 hk)]
    rfl

/-- A name as it is written, and with an underscore for its first colon. -/
inductive Underscored : String → String → Prop
  | plain {word : String} (h : ':' ∉ word.toList) : Underscored word word
  | colon {front behind : List Char} (h : ':' ∉ front) : Underscored
      (String.ofList (front ++ ':' :: behind)) (String.ofList (front ++ '_' :: behind))

theorem underscored_plainName (word : String) : Underscored word (Record.plainName word) := by
  unfold Record.plainName
  dsimp only
  have hfront : ':' ∉ word.toList.takeWhile (· != ':') := fun hmem => by
    simpa using List.mem_takeWhile_imp hmem
  have hsplit := List.takeWhile_append_dropWhile (p := (· != ':')) (l := word.toList)
  have hne := List.head_dropWhile_not (· != ':') (l := word.toList)
  generalize word.toList.takeWhile (· != ':') = front,
    word.toList.dropWhile (· != ':') = rest at hfront hsplit hne
  rw [← hsplit, List.drop_left]
  cases rest with
  | nil =>
    rw [List.append_nil] at hsplit
    rw [hsplit] at hfront
    exact .plain hfront
  | cons c behind =>
    obtain rfl : c = ':' := by simpa using hne (List.cons_ne_nil c behind)
    have h : Underscored (String.ofList (front ++ ':' :: behind)) _ := .colon hfront
    rwa [hsplit, String.ofList_toList] at h

theorem keyword_of_ofWords {words : List String} (h : Record.ofWords words = .ok r) :
    r.kind.keyword = Record.word words 0 := by
  unfold Record.ofWords at h
  dsimp only at h
  split at h
  · rename_i kind hkind
    have hkeyword : kind.keyword = Record.word words 0 := by
      simpa using List.find?_some hkind
    -- every later check either fails or leaves the kind as it is
    repeat' split at h
    all_goals cases h
    exact hkeyword
  · cases h

theorem named_of_record? (h : record? text = some r) :
    r.kind.keyword = Record.word (wordsOn text) 0 ∧
      Underscored (Record.word (wordsOn text) 1) r.name := by
  have hcontent : content text = .ok (.inr r) := by
    rw [record?_eq_content] at h
    cases hcontent : content text with
    | error cause => rw [hcontent] at h; cases h
    | ok found =>
      rw [hcontent] at h
      cases found <;> cases h
      rfl
  have hwords := content_eq_record hcontent
  obtain ⟨hchecked, heq⟩ := Record.isChecked_of_ofWords hwords
  refine ⟨keyword_of_ofWords hwords, ?_⟩
  rw [hchecked.name_eq, heq]
  exact underscored_plainName _

theorem newline_not_mem_word (htext : IsLine text) (i : Nat) :
    '\n' ∉ (Record.word (wordsOn text) i).toList := by
  rw [Record.word, wordsOn, List.getD_eq_getElem?_getD, List.getElem?_map]
  cases hw : (Text.words (Text.trim text))[i]? with
  | none => exact List.not_mem_nil
  | some w =>
    rw [Option.map_some, Option.getD_some, String.toList_ofList]
    have hsub : w ⊆ text := fun c hc =>
      trim_subset text (subset_of_mem_words (List.mem_of_getElem? hw) hc)
    exact fun hmem => (htext '\n' (hsub hmem)).2 rfl

theorem Underscored.newline_not_mem {word name : String} (h : Underscored word name)
    (hword : '\n' ∉ word.toList) : '\n' ∉ name.toList := by
  cases h with
  | plain h => exact hword
  | colon h =>
    simp only [String.toList_ofList, List.mem_append, List.mem_cons] at hword ⊢
    tauto

theorem newline_not_mem_finalName (h : '\n' ∉ r.name.toList) (accepted : Accepted) :
    '\n' ∉ (finalName accepted r).toList := by
  unfold finalName
  split
  · rw [String.toList_append, String.toList_append, toList_toString]
    have hdigits (n : Nat) : '\n' ∉ Nat.toDigits 10 n :=
      fun hmem => absurd (Decimal.isDigit_of_mem_toDigits _ hmem) (by decide)
    simp [h, hdigits]
  · exact h

theorem newline_not_mem_definition {name : String} (hname : '\n' ∉ name.toList)
    (hwords : ∀ i, '\n' ∉ (Record.word r.words i).toList) :
    '\n' ∉ (r.definition name).toList := by
  unfold Record.definition
  cases r.kind <;> simp [String.toList_append, hname, hwords]

theorem newline_not_mem_copied (htext : IsLine text) {copied : String}
    (h : content text = .ok (.inl copied)) : '\n' ∉ copied.toList := by
  unfold content at h
  split at h
  · cases h
    exact List.not_mem_nil
  · rename_i comment hcomment
    cases h
    rw [String.toList_ofList, ← hcomment]
    exact fun hmem => (htext '\n' (trim_subset text hmem)).2 rfl
  · cases hwords : Record.ofWords (wordsOn text) with
    | error cause => rw [hwords] at h; cases h
    | ok r => rw [hwords] at h; cases h

/-- A joined line turns into one line. -/
theorem newline_not_mem_writeLine (htext : IsLine text) {written : String} {more : Accepted}
    (h : writeLine accepted text = .ok (written, more)) : '\n' ∉ written.toList := by
  rcases writeLine_eq_ok h with ⟨hcontent, -⟩ | ⟨r, hcontent, rfl, -⟩
  · exact newline_not_mem_copied htext hcontent
  · have hwords := content_eq_record hcontent
    obtain ⟨hchecked, heq⟩ := Record.isChecked_of_ofWords hwords
    have hname : '\n' ∉ r.name.toList := by
      rw [hchecked.name_eq, heq]
      exact (underscored_plainName _).newline_not_mem (newline_not_mem_word htext 1)
    refine newline_not_mem_definition (newline_not_mem_finalName hname accepted) ?_
    rw [heq]
    exact newline_not_mem_word htext

/-- What converting lines gives, when those in `front` are accepted and the first one behind them is
refused. -/
structure Converts (start : Accepted) (front back : List Joined) (written : List String)
    (final : Accepted) (failure? : Option Failure) : Prop where
  accepted : ∀ line ∈ front, ∃ text found, line.text? = some text ∧ content text = .ok found
  final_eq : final = (recordsOn front).foldl accept start
  length_eq : written.length = front.length
  newline_not_mem : ∀ s ∈ written, '\n' ∉ s.toList
  finished : back = [] → failure? = if final.isEmpty then some .noElements else none
  refused : ∀ line rest, back = line :: rest → ∃ text cause, line.text? = some text ∧
    content text = .error cause ∧ failure? = some (.refused line.number cause)

theorem converts_refused {line : Joined} (htext : line.text? = some text)
    (h : content text = .error cause) (start : Accepted) (rest : List Joined) :
    Converts start [] (line :: rest) [] start (some (.refused line.number cause)) where
  accepted := nofun
  final_eq := rfl
  length_eq := rfl
  newline_not_mem := nofun
  finished := nofun
  refused := by
    rintro _ _ ⟨⟩
    exact ⟨text, cause, htext, h, rfl⟩

theorem Converts.cons {start : Accepted} {line : Joined} {front back : List Joined}
    {written : List String} {failure? : Option Failure} {s : String} {more : Accepted}
    (h : Converts more front back written final failure?) (htext : line.text? = some text)
    (hline : IsLine text) (hwrite : writeLine start text = .ok (s, more)) :
    Converts start (line :: front) back (s :: written) final failure? := by
  have hs := newline_not_mem_writeLine hline hwrite
  obtain ⟨found, hfound, hmore⟩ : ∃ found, content text = .ok found ∧
      more = (record? text).toList.foldl accept start := by
    rw [record?_eq_content]
    rcases writeLine_eq_ok hwrite with ⟨hcontent, rfl⟩ | ⟨r, hcontent, -, rfl⟩
    · exact ⟨_, hcontent, by rw [hcontent]; rfl⟩
    · exact ⟨_, hcontent, by rw [hcontent]; rfl⟩
  have hrecords : recordsOn (line :: front) = (record? text).toList ++ recordsOn front := by
    rw [recordsOn, List.filterMap_cons, htext, Option.bind_some, recordsOn]
    cases record? text <;> rfl
  exact {
    accepted := List.forall_mem_cons.2 ⟨⟨text, found, htext, hfound⟩, h.accepted⟩
    final_eq := by rw [hrecords, List.foldl_append, ← hmore, h.final_eq]
    length_eq := congrArg Nat.succ h.length_eq
    newline_not_mem := List.forall_mem_cons.2 ⟨hs, h.newline_not_mem⟩
    finished := h.finished
    refused := h.refused }

theorem exists_converts (start : Accepted)
    (hlines : ∀ line ∈ lines, ∃ text, line.text? = some text ∧ IsLine text) :
    ∃ front back written final failure?, lines = front ++ back ∧
      writeLines start lines = (written, final, failure?) ∧
      Converts start front back written final failure? := by
  induction lines generalizing start with
  | nil =>
    exact ⟨[], [], [], start, _, rfl, rfl, nofun, rfl, rfl, nofun, fun _ => rfl, nofun⟩
  | cons line lines ih =>
    obtain ⟨⟨text, htext, hline⟩, hrest⟩ := List.forall_mem_cons.1 hlines
    cases hresult : writeLine start text with
    | error cause =>
      have hcontent := writeLine_eq_error hresult
      refine ⟨[], line :: lines, _, _, _, rfl, ?_, converts_refused htext hcontent start lines⟩
      simp only [writeLines, htext, hresult]
    | ok result =>
      obtain ⟨s, more⟩ := result
      obtain ⟨front, back, written, final, failure?, rfl, hmore, h⟩ := ih more hrest
      refine ⟨line :: front, back, _, _, _, rfl, ?_, h.cons htext hline hresult⟩
      simp only [writeLines, htext, hresult, hmore]

/-- How a translation ends behind the joined lines in `front`, from which `names` have been
collected. A line that is refused is joined from the lines in `stretch`, behind those in `before`
that the lines in `front` are joined from. -/
inductive Ends (texts : List (List Char)) (front : List Joined) (names : List String) :
    List Joined → Option Failure → Prop
  | finished (h : names ≠ []) : Ends texts front names [] none
  | empty (h : names = []) : Ends texts front names [] (some .noElements)
  | refused {before stretch rest : List (List Char)} {text : List Char} {isOpen : Bool}
    {cause : Cause} {back : List Joined}
    (htexts : texts = before ++ stretch ++ rest) (hbefore : JoinsAll 1 before front)
    (hstretch : Joins [] stretch text isOpen)
    (hrefused : ∀ c : Converter, (Converter.convertLine text).run c = .error cause c) :
    Ends texts front names (⟨before.length + 1, some text⟩ :: back)
      (some (.refused (before.length + 1) cause))

/-- What a translation and the converter behind it tell of a file with the given lines, when the
joined lines in `front` are the ones that have been converted. -/
structure Reports (texts : List (List Char)) (front back : List Joined) (result : Conversion)
    (after : Converter) : Prop where
  joined : JoinsAll 1 texts (front ++ back)
  accepted : ∀ line ∈ front, ∃ text, line.text? = some text ∧
    ∀ c : Converter, ∃ written next, (Converter.convertLine text).run c = .ok written next
  named : ∀ line ∈ front, ∀ text r, line.text? = some text → record? text = some r →
    r.kind.keyword = Record.word (wordsOn text) 0 ∧
      Underscored (Record.word (wordsOn text) 1) r.name
  beamline : after.beamline = numberedNames (recordsOn front)
  names : result.names = after.beamline
  counters (k : Kind) : after.counters k =
    if k = .quadrupole ∨ k = .cavity then 0 else (recordsOn front).countP (·.kind = k)
  text : ∃ written : List String, written.length = front.length ∧
    (∀ s ∈ written, '\n' ∉ s.toList) ∧
    result.text = head ++ String.join (written.map (· ++ "\n")) ++
      if result.failure?.isSome then "" else Session.closing after.beamline
  ends : Ends texts front after.beamline back result.failure?

theorem JoinsAll.exists_text {texts : List (List Char)} {n : Nat} {joined : List Joined}
    (h : JoinsAll n texts joined) : ∀ line ∈ joined, ∃ text, line.text? = some text := by
  induction h with
  | nil => nofun
  | closed first behind ih => exact List.forall_mem_cons.2 ⟨⟨_, rfl⟩, ih⟩
  | opened only => exact List.forall_mem_singleton.2 ⟨_, rfl⟩

theorem exists_texts {lines : List (List UInt8)} (h : ∀ line ∈ lines, (lineText? line).isSome) :
    ∃ texts : List (List Char), lines.map lineText? = texts.map some := by
  induction lines with
  | nil => exact ⟨[], rfl⟩
  | cons line lines ih =>
    obtain ⟨hline, hlines⟩ := List.forall_mem_cons.1 h
    obtain ⟨text, htext⟩ := Option.isSome_iff_exists.1 hline
    obtain ⟨texts, htexts⟩ := ih hlines
    exact ⟨text :: texts, by rw [List.map_cons, List.map_cons, htext, htexts]⟩

theorem Converts.ends {texts : List (List Char)} {front back : List Joined} {written : List String}
    {failure? : Option Failure} (h : Converts [] front back written final failure?)
    (hjoined : JoinsAll 1 texts (front ++ back)) :
    Ends texts front (namesOf final) back failure? := by
  cases back with
  | nil =>
    rw [h.finished rfl]
    cases final with
    | nil => exact .empty rfl
    | cons a final => exact .finished (by simp [namesOf])
  | cons line back =>
    obtain ⟨text, cause, htext, hcontent, rfl⟩ := h.refused line back rfl
    obtain ⟨before, stretch, rest, text', isOpen, rfl, hbefore, hstretch, rfl, -⟩ :=
      hjoined.exists_stretch
    obtain rfl := Option.some.inj htext
    rw [Nat.add_comm]
    refine .refused rfl hbefore hstretch fun c => ?_
    rw [Converter.run_convertLine, hcontent]

/-- Lines that can be read are translated by every converter alike, and the first line that is
refused ends the translation. -/
theorem exists_reports (hbytes : ∀ line ∈ splitLines bytes, (lineText? line).isSome) :
    ∃ (texts : List (List Char)) (front back : List Joined) (after : Converter),
      (splitLines bytes).map lineText? = texts.map some ∧
      readLines bytes = front ++ back ∧ Reports texts front back (convert bytes) after ∧
      ∀ c : Converter, c.translate bytes = (convert bytes, after) := by
  obtain ⟨texts, htexts⟩ := exists_texts hbytes
  have hjoined : JoinsAll 1 texts (readLines bytes) := by
    rw [readLines, htexts]
    exact joinsAll_joinLines 1 texts
  have hlines : ∀ line ∈ readLines bytes, ∃ text, line.text? = some text ∧ IsLine text := by
    intro line hline
    obtain ⟨text, htext⟩ := hjoined.exists_text line hline
    exact ⟨text, htext, isLine_of_mem_readLines line hline text htext⟩
  obtain ⟨front, back, written, final, failure?, hsplit, hwrite, h⟩ :=
    exists_converts [] hlines
  have hnames : namesOf final = numberedNames (recordsOn front) := by
    rw [h.final_eq, namesOf_accept]
  have htranslate (c : Converter) := c.translate_eq bytes
  rw [hwrite] at htranslate
  rw [hsplit] at hjoined
  refine ⟨texts, front, back, Converter.holding final, htexts, hsplit, ?_, htranslate⟩
  have hconvert : convert bytes = ⟨head ++ String.join (written.map (· ++ "\n")) ++
      (if failure?.isSome then "" else Session.closing (namesOf final)), namesOf final,
      failure?⟩ := by
    rw [convert, hwrite]
    cases failure? <;> simp [Session.closing, namesOf, String.append_assoc]
  rw [hconvert]
  exact {
    joined := hjoined
    accepted := by
      intro line hline
      obtain ⟨text, found, htext, hfound⟩ := h.accepted line hline
      refine ⟨text, htext, fun c => ?_⟩
      rw [Converter.run_convertLine, hfound]
      cases found <;> exact ⟨_, _, rfl⟩
    named := fun _ _ _ _ _ => named_of_record?
    beamline := hnames
    names := rfl
    counters := by
      rw [h.final_eq]
      exact counters_holding (recordsOn front)
    text := ⟨written, h.length_eq, h.newline_not_mem, rfl⟩
    ends := h.ends hjoined }

/-- A file with a continued record and, behind a comment, a continued one that is refused. -/
def brokenFile : List UInt8 :=
  bytesOf ("MARK A:B:C 0 1\nquadpole q 1 .1 5\n\ndrift d 1 &\n.02\n# \u00c9tude\n" ++
    "drift e &\n 1 x\ndrift f 1 .02\n")

theorem exists_reports_brokenFile :
    (∀ line ∈ splitLines brokenFile, (lineText? line).isSome) ∧
    (convert brokenFile).names = ["a_b:c_1", "q", "d_1"] ∧
    (convert brokenFile).failure? = some (.refused 7 (.notNumber 3 "x")) ∧
    ∃ (texts : List (List Char)) (front back : List Joined) (after : Converter),
      (splitLines brokenFile).map lineText? = texts.map some ∧
      readLines brokenFile = front ++ back ∧
      Reports texts front back (convert brokenFile) after ∧
      ∀ c : Converter, c.translate brokenFile = (convert brokenFile, after) := by
  have readable : ∀ line ∈ splitLines brokenFile, (lineText? line).isSome := by decide +kernel
  exact ⟨readable, by decide +kernel, by decide +kernel, exists_reports readable⟩

end BeamEnvelope.Tlm
