import BinaryCodec.Proofs.Binding.Equivalence
import BinaryCodec.Proofs.Definition.Acyclic
import BinaryCodec.Proofs.Schema.Calls

namespace BinaryCodec

open Relation

namespace Definition

variable {messages : List Message} {outer inner name : String}

section

open scoped Classical

noncomputable def inside (messages : List Message) (name : String) : List Message :=
  messages.filter fun m => TransGen (Inlines messages) name m.name

theorem mem_inside {m : Message} :
    m ∈ inside messages name ↔ m ∈ messages ∧ TransGen (Inlines messages) name m.name := by
  simp only [inside, List.mem_filter, decide_eq_true_eq]

variable (acyclic : ∀ name, ¬TransGen (Inlines messages) name name)
include acyclic

theorem length_inside_lt (declared : name ∈ messages.map Message.name) :
    (inside messages name).length < messages.length := by
  obtain ⟨m, member, rfl⟩ := List.mem_map.mp declared
  refine List.length_filter_lt_length_iff_exists.mpr ⟨m, member, ?_⟩
  rw [decide_eq_true_eq]
  exact acyclic m.name

theorem length_inside_lt_of_inlines (inlines : Inlines messages outer inner)
    (declared : inner ∈ messages.map Message.name) :
    (inside messages inner).length < (inside messages outer).length := by
  obtain ⟨m, member, rfl⟩ := List.mem_map.mp declared
  have within : inside messages m.name =
      (inside messages outer).filter fun other => TransGen (Inlines messages) m.name other.name := by
    unfold inside
    rw [List.filter_filter]
    refine List.filter_congr fun other _ => ?_
    rw [← Bool.decide_and, decide_eq_decide]
    exact ⟨fun leads => ⟨leads, leads.head inlines⟩, fun both => both.1⟩
  rw [within]
  refine List.length_filter_lt_length_iff_exists.mpr ⟨m, mem_inside.mpr ⟨member, .single inlines⟩, ?_⟩
  rw [decide_eq_true_eq]
  exact acyclic m.name

end

end Definition

namespace Binding

open Definition Schema

variable {doc : Document}

noncomputable def callWeight (messages : List Message) (call : Call) : Nat :=
  messages.length * call.unread + (inside messages call.name).length

section weight

variable {messages : List Message} {inner outer : Call}
  (acyclic : ∀ name, ¬TransGen (Inlines messages) name name)
include acyclic

theorem callWeight_lt (declared : inner.name ∈ messages.map Message.name) {bytes : Nat}
    (left : inner.unread < bytes) : callWeight messages inner < messages.length * bytes := by
  have some := length_inside_lt acyclic declared
  have whole := Nat.mul_le_mul_left messages.length (Nat.succ_le_of_lt left)
  rw [Nat.mul_succ] at whole
  unfold callWeight
  omega

theorem callWeight_lt_of_consumed (declared : inner.name ∈ messages.map Message.name)
    (consumed : inner.unread < outer.unread) : callWeight messages inner < callWeight messages outer :=
  Nat.lt_of_lt_of_le (callWeight_lt acyclic declared consumed) (Nat.le_add_right ..)

theorem callWeight_lt_of_inlines (declared : inner.name ∈ messages.map Message.name)
    (inlines : Inlines messages outer.name inner.name) (same : inner.unread = outer.unread) :
    callWeight messages inner < callWeight messages outer := by
  unfold callWeight
  rw [same]
  exact Nat.add_lt_add_left (length_inside_lt_of_inlines acyclic inlines declared) _

end weight

theorem descends_declarations (path : String) (coherent : (declarations path doc).Coherent)
    (wellFormed : doc.WellFormed) (acyclic : ∀ name, ¬TransGen (Inlines doc.messages) name name) :
    Descends (declarations path doc) (callWeight doc.messages) := by
  refine ⟨(compiled_declarations path coherent).shapes, ?_⟩
  intro outer inner steps step left unread declared member reads within consumed
  obtain ⟨m, among, rfl, same⟩ | ⟨_, -, -, impossible⟩ := declared_of_shape? declared
  case inr => cases impossible
  cases same
  obtain ⟨native, line, rfl⟩ := List.mem_map.mp member
  obtain ⟨field, written, rfl⟩ := List.mem_map.mp line
  have resolved := (wellFormed.messages m among).resolved field written
  obtain ⟨label, type, isArray, place⟩ := field
  cases type with
  | builtin builtin => cases reads
  | enumeration name => cases reads
  | message name =>
    cases reads
    rcases Nat.eq_or_lt_of_le within with same | less
    · have single : isArray = false := Bool.eq_false_iff.mpr fun repeated =>
        Nat.ne_of_lt (consumed repeated) same
      subst single
      have inlines : Inlines doc.messages m.name inner := ⟨m, among, rfl, _, written, rfl⟩
      exact callWeight_lt_of_inlines acyclic resolved inlines same
    · exact callWeight_lt_of_consumed acyclic resolved less

theorem acyclic_of_ofSource {settings : Settings} {source : String} {c : Compilation}
    (compiled : Compilation.ofSource settings source = .ok c) :
    ∀ name, ¬TransGen (Inlines c.document.messages) name name := by
  have parsed := parse_of_ofSource compiled
  have distinct := (Document.wellFormed_of_ofTokens parsed).1.typesDistinct
  obtain ⟨draft, -, resolved⟩ := bind_eq_ok.mp parsed
  obtain ⟨-, messages, -, straight, same⟩ := Draft.resolve_eq_ok.mp resolved
  rw [same] at distinct ⊢
  exact acyclic_of_rejectInlineCycles (List.nodup_append.mp distinct).1 straight

/-- Reading a message ends on every input. Of the calls that are open at once, as a reader notes them that
reads as the message is read, two of one message have a byte read between them, and there are at most as
many as there are messages for each number of bytes left; so that more fuel than this changes nothing. -/
theorem openCalls_of_compile {settings : Settings} {source : String} {c : Compilation}
    (compiled : Compilation.ofSource settings source = .ok c) {m : Message}
    (member : m ∈ c.document.messages) (path : String) (b : Buffer) :
    (∀ fuel, forget (observeNamed (declarations path c.document) fuel [] m.name ⟨b, []⟩) =
        decodeNamed (declarations path c.document) fuel m.name b ∧
      ∀ stack ∈ openCalls (declarations path c.document) fuel m.name b,
        (stack.Pairwise fun inner outer =>
          inner.name = outer.name → inner.unread < outer.unread) ∧
        stack.length ≤ c.document.messages.length * (b.store.unread + 1)) ∧
    ∀ fuel, c.document.messages.length * (b.store.unread + 1) ≤ fuel →
      decodeNamed (declarations path c.document) fuel m.name b =
        decode (declarations path c.document) (.named m.name) b := by
  have acyclic := acyclic_of_ofSource compiled
  have wellFormed := (Document.wellFormed_of_ofTokens (parse_of_ofSource compiled)).1
  have descends := descends_declarations path (coherent_of_ofSource compiled path) wellFormed acyclic
  have light : ∀ left ≤ b.store.unread, callWeight c.document.messages ⟨m.name, left⟩ <
      c.document.messages.length * (b.store.unread + 1) := by
    intro left within
    exact callWeight_lt acyclic (List.mem_map_of_mem member) (Nat.lt_succ_of_le within)
  constructor
  · intro fuel
    refine ⟨observes_named fuel [] m.name ⟨b, []⟩, fun stack open_ => ?_⟩
    have falling := falling_openCalls descends light fuel stack open_
    refine ⟨falling.falls.imp ?_, falling.length_le⟩
    intro inner outer less same
    unfold callWeight at less
    rw [same] at less
    exact Nat.lt_of_mul_lt_mul_left (Nat.lt_of_add_lt_add_right less)
  · intro fuel enough
    have settled : ∀ fuel, c.document.messages.length * (b.store.unread + 1) ≤ fuel →
        decodeNamed (declarations path c.document) fuel m.name b =
          decodeNamed (declarations path c.document)
            (c.document.messages.length * (b.store.unread + 1)) m.name b := by
      intro fuel enough
      obtain ⟨more, rfl⟩ := Nat.exists_eq_add_of_le enough
      exact decodeNamed_add descends light more
    have deep : c.document.messages.length * (b.store.unread + 1) ≤
        decodeDepth (declarations path c.document) b.store.unread := by
      have fewer : c.document.messages.length ≤ (declarations path c.document).length + 1 := by
        simp only [declarations, List.length_append, List.length_map]
        omega
      rw [decodeDepth, Nat.mul_comm]
      exact Nat.mul_le_mul_left _ fewer
    rw [settled fuel enough]
    exact (settled _ deep).symm

/-- A message that lists messages of its own kind, and has another one inside. -/
def treeSource : String := "struct Tree\x7bLeaf leaf Tree children[]\x7d struct Leaf\x7buint8 n\x7d"

def treeMessage : Message :=
  ⟨"Tree", [⟨"leaf", .message "Leaf", false, ⟨1, 13⟩⟩, ⟨"children", .message "Tree", true, ⟨1, 23⟩⟩],
    ⟨1, 8⟩⟩

def treeDocument : Document where
  package := "plant"
  pragmas := []
  messages := [treeMessage, ⟨"Leaf", [⟨"n", .builtin .uint8, false, ⟨1, 52⟩⟩], ⟨1, 47⟩⟩]
  enumerations := []
  services := []

theorem ofSource_treeSource : ∃ native script,
    Compilation.ofSource (.ofPackage "plant") treeSource = .ok ⟨treeDocument, native, script⟩ := by
  have parsed : Document.ofTokens "plant" (tokens treeSource) = .ok treeDocument := by decide +kernel
  exact ⟨_, _, bind_eq_ok.mpr ⟨treeDocument, parsed, rfl⟩⟩

theorem openCalls_of_compile_tree : ∃ native script,
    Compilation.ofSource (.ofPackage "plant") treeSource = .ok ⟨treeDocument, native, script⟩ ∧
    openCalls (declarations "" treeDocument) 9 "Tree" (.ofSlice [7, 1, 8, 0]) =
      [[⟨"Leaf", 2⟩, ⟨"Tree", 2⟩, ⟨"Tree", 4⟩], [⟨"Tree", 2⟩, ⟨"Tree", 4⟩],
        [⟨"Leaf", 4⟩, ⟨"Tree", 4⟩], [⟨"Tree", 4⟩]] ∧
    (∀ stack ∈ openCalls (declarations "" treeDocument) 9 "Tree" (.ofSlice [7, 1, 8, 0]),
      stack.length ≤ 10) ∧
    ∀ fuel, 10 ≤ fuel →
      decodeNamed (declarations "" treeDocument) fuel "Tree" (.ofSlice [7, 1, 8, 0]) =
        decode (declarations "" treeDocument) (.named "Tree") (.ofSlice [7, 1, 8, 0]) := by
  obtain ⟨native, script, compiled⟩ := ofSource_treeSource
  have member : treeMessage ∈ treeDocument.messages := List.mem_cons_self ..
  obtain ⟨calls, settles⟩ := openCalls_of_compile compiled member "" (.ofSlice [7, 1, 8, 0])
  refine ⟨native, script, compiled, by with_unfolding_all rfl, ?_, settles⟩
  exact fun stack open_ => ((calls 9).2 stack open_).2

end Binding

end BinaryCodec
