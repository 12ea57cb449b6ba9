import BinaryCodec.Binding.Compilation
import BinaryCodec.Proofs.Binding.Equivalence
import BinaryCodec.Proofs.Definition.Arrangement
import Mathlib.Data.List.Nodup

namespace BinaryCodec.Binding

open Definition

section sorting

variable {α β : Type} {name : α → String} {items others : List α}

theorem sortByName_perm (name : α → String) (items : List α) : (sortByName name items).Perm items :=
  List.mergeSort_perm ..

theorem not_decide_lt {first second : String} : (!decide (second < first)) = true ↔ first ≤ second := by
  rw [Bool.not_eq_true', decide_eq_false_iff_not, not_lt]

theorem pairwise_sortByName (name : α → String) (items : List α) :
    (sortByName name items).Pairwise fun a b => name a ≤ name b := by
  have sorted : (sortByName name items).Pairwise fun a b => !decide (name b < name a) := by
    refine List.pairwise_mergeSort (fun a b c before after => ?_) (fun a b => ?_) items
    · rw [not_decide_lt] at before after ⊢
      exact before.trans after
    · rw [Bool.or_eq_true, not_decide_lt, not_decide_lt]
      exact le_total _ _
  exact sorted.imp not_decide_lt.mp

theorem map_sortByName {key : β → String} {f : α → β} (named : ∀ a, key (f a) = name a)
    (permuted : (items.map f).Perm (others.map f)) (distinct : (items.map name).Nodup) :
    (sortByName name items).map f = (sortByName name others).map f := by
  have here := (sortByName_perm name items).map f
  have there := (sortByName_perm name others).map f
  have sorted (l : List α) : ((sortByName name l).map f).Pairwise fun x y => key x ≤ key y := by
    rw [List.pairwise_map]
    simp only [named]
    exact pairwise_sortByName name l
  have keys : ((items.map f).map key).Nodup := by
    rw [List.map_map, Function.comp_def]
    simpa only [named] using distinct
  have moved := here.trans (permuted.trans there.symm)
  refine moved.eq_of_pairwise (fun x y first second before after => ?_) (sorted items) (sorted others)
  have among := permuted.mem_iff.mpr (there.mem_iff.mp second)
  exact List.inj_on_of_nodup_map keys (here.mem_iff.mp first) among (le_antisymm before after)

end sorting

theorem ScriptClass.ofMessage_unplaced (m : Message) : ofMessage m.unplaced = ofMessage m := by
  rw [ofMessage, ofMessage, Message.unplaced, List.map_map]
  rfl

theorem ScriptModule.ofDocument_of_reorders (settings : Settings) {doc other : Document}
    (reorders : doc.unplaced.Reorders other.unplaced) (distinct : doc.typeNames.Nodup) :
    ofDocument settings doc = ofDocument settings other := by
  obtain ⟨messagesDistinct, enumerationsDistinct, -⟩ := List.nodup_append.mp distinct
  have pragmas : doc.pragmas = other.pragmas := reorders.pragmas
  have package : doc.package = other.package := reorders.package
  have enumerations : sortByName Enumeration.name doc.enumerations =
      sortByName Enumeration.name other.enumerations := by
    have named : ∀ e : Enumeration, (id e).name = e.name := fun e => rfl
    have same := map_sortByName named (reorders.enumerations.map id) enumerationsDistinct
    rwa [List.map_id, List.map_id] at same
  have classes : (doc.messages.map ScriptClass.ofMessage).Perm (other.messages.map .ofMessage) := by
    have moved := reorders.messages.map ScriptClass.ofMessage
    simpa only [Document.unplaced, List.map_map, Function.comp_def, ScriptClass.ofMessage_unplaced]
      using moved
  have named : ∀ m, (ScriptClass.ofMessage m).name = m.name := fun m => rfl
  have sorted := map_sortByName named classes messagesDistinct
  unfold ofDocument Document.hasPragma
  rw [package, pragmas, enumerations, sorted]

/-- Texts of the same declarations in any order, with any white space and comments, are either both read
or both refused. What is read from them differs in places and in the order of declarations only, and they
have the same JavaScript module. -/
theorem ofSource_of_perm {source other : String} {pieces others : List (List TokenKind)}
    (here : Declares source pieces) (there : Declares other others) (permuted : pieces.Perm others) :
    (∀ package, (∃ doc, Document.parse package source = .ok doc) ↔
      ∃ read, Document.parse package other = .ok read) ∧
    (∀ package doc read, Document.parse package source = .ok doc →
      Document.parse package other = .ok read → doc.unplaced.Reorders read.unplaced) ∧
    ∀ settings c d, Compilation.ofSource settings source = .ok c →
      Compilation.ofSource settings other = .ok d → c.script = d.script := by
  have reorders : ∀ package doc read, Document.parse package source = .ok doc →
      Document.parse package other = .ok read → doc.unplaced.Reorders read.unplaced := by
    intro package doc read parsed again
    obtain ⟨found, reached, moved⟩ := exists_parse_of_perm here there permuted parsed
    rw [again] at reached
    cases reached
    exact moved
  refine ⟨fun package => ⟨?_, ?_⟩, reorders, fun settings c d compiled again => ?_⟩
  · rintro ⟨doc, parsed⟩
    obtain ⟨read, reached, -⟩ := exists_parse_of_perm here there permuted parsed
    exact ⟨read, reached⟩
  · rintro ⟨read, parsed⟩
    obtain ⟨doc, reached, -⟩ := exists_parse_of_perm there here permuted.symm parsed
    exact ⟨doc, reached⟩
  · have parsed := parse_of_ofSource compiled
    have distinct := (Document.wellFormed_of_ofTokens parsed).1.typesDistinct
    have moved := reorders _ _ _ parsed (parse_of_ofSource again)
    rw [script_of_ofSource compiled, script_of_ofSource again,
      ScriptModule.ofDocument_of_reorders settings moved distinct]

/-- The declarations of a canvas from the last to the first. -/
def turnedSource : String :=
  "rpc Api\x7bput(Dot)->Tag end(void)->void\x7d # what there is to call
struct Tag\x7bstring
  text\x7dstruct Dot\x7b Hue hue Tag tag Tag more[] \x7d
enum Hue\x7bred blue\x7d use dense"

theorem ofSource_of_perm_turned : (∃ read, Document.parse "paint" turnedSource = .ok read) ∧
    ∀ c d, Compilation.ofSource (.ofPackage "paint") canvas.text = .ok c →
      Compilation.ofSource (.ofPackage "paint") turnedSource = .ok d → c.script = d.script := by
  have declared : ∀ d ∈ canvas.items.map Item.kinds, IsDeclaration d :=
    List.forall_mem_map.mpr fun item _ => item.spelling_kinds.isDeclaration
  have turned : ∀ d ∈ canvas.items.reverse.map Item.kinds, IsDeclaration d :=
    List.forall_mem_map.mpr fun item _ => item.spelling_kinds.isDeclaration
  have here : Declares canvas.text (canvas.items.map Item.kinds) :=
    declares_of_kinds declared (by decide +kernel)
  have there : Declares turnedSource (canvas.items.reverse.map Item.kinds) :=
    declares_of_kinds turned (by decide +kernel)
  have permuted := (canvas.items.reverse_perm.symm).map Item.kinds
  obtain ⟨both, -, scripts⟩ := ofSource_of_perm here there permuted
  have valid : canvas.Valid := (Document.rendering_of_parse ofTokens_canvas).1
  have spells : Row Item.Spelling canvas.items ((tokens canvas.text).map Token.kind) := by
    rw [here.kinds]
    exact row_flatMap _ fun item _ => item.spelling_kinds
  obtain ⟨doc, parsed, -⟩ := exists_ofTokens valid (interleaves_items canvas) spells
  exact ⟨(both "paint").mp ⟨doc, parsed⟩, scripts _⟩

end BinaryCodec.Binding
