import BeamEnvelope.Proofs.Glps.RegularEnvironments
import BeamEnvelope.Proofs.Glps.RoundTrip

/-!
# Lattices that were read are printed losslessly

A lattice that was read is settled: its names are identifiers of one role each, its values can be
printed, and components of one name are one component. So it is printed unless its line is empty, and
since no component differs from the one that is written for its name, reading gives back the same
lattice, number for number and bit for bit.
-/

namespace BeamEnvelope.Glps

open Grammar

variable {env : Environment} {lattice : Lattice} {source : List UInt8} {c d : Component}

structure Settled (lattice : Lattice) : Prop where
  name : isIdentifier lattice.name = true
  globals : ∀ entry ∈ lattice.globals.entries, IsPrintableEntry entry
  components : ∀ c ∈ lattice.components, c.IsPrintable
  component_eq : ∀ c ∈ lattice.components, ∀ d ∈ lattice.components, c.name = d.name → c = d
  component_not_global : ∀ c ∈ lattice.components, lattice.globals.contains c.name = false
  name_not_global : lattice.globals.contains lattice.name = false
  name_not_component : ∀ c ∈ lattice.components, c.name ≠ lattice.name
  length_le : lattice.components.length ≤ maxElements

theorem mem_of_lattice? (h : env.lattice? = some lattice) :
    (lattice.name, Symbol.line lattice.components) ∈ env ∧
      ∀ entry ∈ lattice.globals.entries, (entry.1, Symbol.value entry.2) ∈ env := by
  obtain ⟨⟨name, components⟩, hlast, hlattice⟩ := Option.bind_eq_some_iff.1 h
  obtain rfl := Option.some.inj hlattice
  constructor
  · obtain ⟨b, hb, hline⟩ := List.mem_filterMap.1 (List.mem_of_getLast? hlast)
    obtain ⟨n, symbol⟩ := b
    cases symbol with
    | value v => cases hline
    | element c => cases hline
    | line cs =>
      cases hline
      exact hb
  · intro entry hentry
    obtain ⟨b, hb, hvalue⟩ := List.mem_filterMap.1 (Dictionary.mem_of_mem_ofList hentry)
    obtain ⟨n, symbol⟩ := b
    cases symbol with
    | value v =>
      cases hvalue
      exact hb
    | element c => cases hvalue
    | line cs => cases hvalue

/-- A name of a regular environment has one role. -/
theorem Regular.eq_of_mem (henv : Regular env) {n : String} {a b : Symbol} (ha : (n, a) ∈ env)
    (hb : (n, b) ∈ env) : a = b := by
  have ha := (lookup_eq_some_iff_mem henv.distinct).2 ha
  have hb := (lookup_eq_some_iff_mem henv.distinct).2 hb
  exact Option.some.inj (ha.symm.trans hb)

theorem Regular.settled (henv : Regular env) (h : env.lattice? = some lattice) :
    Settled lattice := by
  obtain ⟨hline, hvalues⟩ := mem_of_lattice? h
  obtain ⟨hfits, helements⟩ := henv.isBound _ hline
  have hglobal {n : String} {symbol : Symbol} (hn : (n, symbol) ∈ env)
      (hsymbol : ∀ v, Symbol.value v ≠ symbol) : lattice.globals.contains n = false := by
    rw [Dictionary.contains_eq_false]
    cases hget : lattice.globals.get? n with
    | none => rfl
    | some v =>
      have hv := hvalues _ (Dictionary.get?_eq_some_iff_mem.1 hget)
      exact absurd (henv.eq_of_mem hv hn) (hsymbol v)
  constructor
  · exact henv.isIdentifier _ hline
  · exact fun entry hentry =>
      ⟨henv.isIdentifier _ (hvalues entry hentry), henv.isBound _ (hvalues entry hentry)⟩
  · exact fun c hc => (henv.isBound _ (helements c hc)).2
  · intro c hc d hd hname
    have hsame := henv.eq_of_mem (helements c hc) (hname ▸ helements d hd)
    exact Symbol.element.inj hsame
  · exact fun c hc => hglobal (helements c hc) (by nofun)
  · exact hglobal hline (by nofun)
  · intro c hc hname
    have hsame := henv.eq_of_mem (helements c hc) (hname ▸ hline)
    cases hsame
  · exact hfits

theorem settled_of_read (h : read source = .ok lattice) : Settled lattice := by
  obtain ⟨p, pos, htokens, -, hlattice⟩ := exists_program_of_read h
  obtain ⟨env, hrun, hlattice⟩ := Option.bind_eq_some_iff.1 hlattice
  have hlexical := isLexical_of_begins htokens
  exact (regular_nil.foldlM hlexical hrun).settled hlattice

namespace Settled

/-- Each component is the one that is written for its name. -/
theorem mem_definitions (h : Settled lattice) (hc : c ∈ lattice.components) :
    c ∈ definitions lattice.components := by
  obtain ⟨d, hd, hname⟩ := exists_mem_definitions hc
  exact h.component_eq d (mem_of_mem_firsts hd) c hc hname ▸ hd

theorem printable (h : Settled lattice) (hne : lattice.components ≠ []) : Printable lattice where
  name := h.name
  globals := h.globals
  definitions c hc :=
    ⟨h.components c (mem_of_mem_firsts hc), h.component_not_global c (mem_of_mem_firsts hc)⟩
  agree c hc := ⟨c, h.mem_definitions hc, beq_self_component (h.components c hc)⟩
  components_ne_nil := hne
  name_not_global := h.name_not_global
  name_not_component := h.name_not_component

theorem reread_eq (h : Settled lattice) : reread lattice = lattice := by
  have hcomponents : lattice.components.map (written lattice.components) = lattice.components := by
    conv_rhs => rw [← List.map_id lattice.components]
    exact List.map_congr_left fun c hc => written_eq (h.mem_definitions hc) rfl
  rw [reread, hcomponents]

theorem print_of_eq_nil (h : Settled lattice) (hnil : lattice.components = []) :
    print lattice = .error (.emptyLine lattice.name) := by
  have hglobals : lattice.globals.entries.mapM globalStatement =
      .ok (lattice.globals.entries.map globalSource) :=
    (mapM_eq_ok_map fun x y => globalStatement_eq_ok).2 ⟨h.globals, rfl⟩
  have hname : identifier lattice.name = .ok lattice.name := identifier_eq_ok.2 ⟨h.name, rfl⟩
  have hcomponents : componentStatements lattice.globals [] [] = .ok [] := rfl
  rw [print, bind_of_eq_ok hglobals, hnil, bind_of_eq_ok hcomponents, bind_of_eq_ok hname]
  rfl

end Settled

/-- A lattice that was read is refused by the printer only for an empty line, and otherwise its
source describes the same lattice, so printing what is read from a printed source changes nothing. -/
theorem print_read (h : read source = .ok lattice) :
    (lattice.components = [] → print lattice = .error (.emptyLine lattice.name)) ∧
    (lattice.components ≠ [] → ∃ text, print lattice = .ok text ∧
      read (bytesOf text) = .ok lattice ∧
      ∀ back, read (bytesOf text) = .ok back → print back = .ok text) := by
  have hsettled := settled_of_read h
  refine ⟨hsettled.print_of_eq_nil, fun hne => ?_⟩
  have hprintable := hsettled.printable hne
  have hprint := print_eq_ok.2 ⟨hprintable, rfl⟩
  have hread := read_source hprintable hsettled.length_le
  rw [hsettled.reread_eq] at hread
  refine ⟨Glps.source lattice, hprint, hread, fun back hback => ?_⟩
  rw [hread] at hback
  cases hback
  exact hprint

-- Equality tells the two zeros apart, which the comparison of numbers does not.
deriving instance DecidableEq for Value, Dictionary, Component, Lattice

/-- A line within a line, and a length that is zero with a minus sign. -/
def ringSource : List UInt8 :=
  bytesOf "z = -0; d: drift, L = 2 * z; cell: LINE = (2 * d); ring: line = (cell, d);"

def ring : Lattice where
  name := "ring"
  globals := .ofList [("z", .scalar (-0.0))]
  components := .replicate 3
    { name := "d", kind := "drift", params := .ofList [("L", .scalar (-0.0))] }

/-- A line that holds a drift no times. -/
def emptySource : List UInt8 :=
  bytesOf "d: drift; cell: LINE = (0 * d);"

theorem ring_print_read : (read ringSource = .ok ring ∧ ∃ text, print ring = .ok text ∧
      read (bytesOf text) = .ok ring ∧
      ∀ back, read (bytesOf text) = .ok back → print back = .ok text) ∧
    read emptySource = .ok { name := "cell" } ∧
      print { name := "cell" } = .error (.emptyLine "cell") :=
  have ring_read : read ringSource = .ok ring := by decide +kernel
  have empty_read : read emptySource = .ok { name := "cell" } := by decide +kernel
  ⟨⟨ring_read, (print_read ring_read).2 (by decide)⟩,
    empty_read, (print_read empty_read).1 rfl⟩

end BeamEnvelope.Glps
