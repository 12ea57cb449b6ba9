import BinaryCodec.Proofs.Definition.Soundness
import Mathlib.Data.List.Perm.Basic

namespace BinaryCodec.Definition

def IsDeclaration (kinds : List TokenKind) : Prop :=
  ∃ keyword body, kinds = keyword :: body ∧ keyword.isKeyword = true ∧
    ∀ kind ∈ body, kind.isKeyword = false

def StartsAnew (kinds : List TokenKind) : Prop := kinds.takeWhile (!·.isKeyword) = []

theorem IsDeclaration.startsAnew {first : List TokenKind} (declared : IsDeclaration first)
    (rest : List TokenKind) : StartsAnew (first ++ rest) := by
  obtain ⟨keyword, body, rfl, key, -⟩ := declared
  rw [StartsAnew, List.cons_append, List.takeWhile_cons_of_neg]
  simp [key]

theorem startsAnew_flatten {pieces : List (List TokenKind)} (declared : ∀ d ∈ pieces, IsDeclaration d) :
    StartsAnew pieces.flatten := by
  cases pieces with
  | nil => rfl
  | cons d pieces => exact (declared d (List.mem_cons_self ..)).startsAnew _

theorem IsDeclaration.append_inj {first second rest more : List TokenKind} (one : IsDeclaration first)
    (other : IsDeclaration second) (anew : StartsAnew rest) (again : StartsAnew more)
    (same : first ++ rest = second ++ more) : first = second ∧ rest = more := by
  obtain ⟨keyword, body, rfl, -, plain⟩ := one
  obtain ⟨start, inside, rfl, -, plain'⟩ := other
  rw [List.cons_append, List.cons_append, List.cons.injEq] at same
  obtain ⟨rfl, same⟩ := same
  have front {body rest : List TokenKind} (plain : ∀ kind ∈ body, kind.isKeyword = false)
      (anew : StartsAnew rest) : (body ++ rest).takeWhile (!·.isKeyword) = body := by
    rw [List.takeWhile_append_of_pos fun kind member => by rw [plain kind member]; rfl, anew,
      List.append_nil]
  have bodies : body = inside := by rw [← front plain anew, same, front plain' again]
  subst bodies
  exact ⟨rfl, List.append_cancel_left same⟩

theorem isDeclaration_block {α : Type} {keyword : TokenKind} {name : String}
    {spelling : α → List TokenKind → Prop} {items : List α} {kinds : List TokenKind}
    (block : Item.Block keyword name spelling items kinds) (key : keyword.isKeyword = true)
    (each : ∀ item first, spelling item first → ∀ kind ∈ first, kind.isKeyword = false) :
    IsDeclaration kinds := by
  obtain ⟨body, row, rfl⟩ := block
  have inside := row.forall_symbols fun item _ first spelled => each item first spelled
  refine ⟨keyword, _, rfl, key, ?_⟩
  simp only [List.forall_mem_cons, List.forall_mem_append]
  exact ⟨rfl, rfl, inside, rfl, fun kind none => nomatch none⟩

theorem Item.Spelling.isDeclaration {item : Item} {kinds : List TokenKind}
    (spelling : item.Spelling kinds) : IsDeclaration kinds := by
  cases item with
  | pragma word =>
    cases spelling
    exact ⟨.useKeyword, [.word word], rfl, rfl, List.forall_mem_singleton.mpr rfl⟩
  | enumeration e =>
    refine isDeclaration_block spelling rfl fun v first spelled => ?_
    cases spelled
    exact List.forall_mem_singleton.mpr rfl
  | message m =>
    refine isDeclaration_block spelling rfl fun field first spelled => ?_
    obtain ⟨type, -, rfl⟩ := spelled
    simp [TokenKind.isKeyword]
  | service s =>
    refine isDeclaration_block spelling rfl fun p first spelled => ?_
    obtain ⟨request, response, -, -, rfl⟩ := spelled
    simp [TokenKind.isKeyword]

theorem startsAnew_of_row {items : List Item} {kinds : List TokenKind}
    (row : Row Item.Spelling items kinds) : StartsAnew kinds := by
  cases row with
  | nil => rfl
  | cons head row => exact head.isDeclaration.startsAnew _

theorem forall₂_of_row {items : List Item} {pieces : List (List TokenKind)}
    (row : Row Item.Spelling items pieces.flatten) (declared : ∀ d ∈ pieces, IsDeclaration d) :
    List.Forall₂ Item.Spelling items pieces := by
  generalize whole : pieces.flatten = kinds at row
  induction row generalizing pieces with
  | nil =>
    cases pieces with
    | nil => exact .nil
    | cons d pieces =>
      obtain ⟨keyword, body, rfl, -⟩ := declared d (List.mem_cons_self ..)
      cases whole
  | @cons item items first more head row ih =>
    have one := head.isDeclaration
    cases pieces with
    | nil =>
      obtain ⟨keyword, body, rfl, -⟩ := one
      cases whole
    | cons d pieces =>
      obtain ⟨here, later⟩ := List.forall_mem_cons.mp declared
      obtain ⟨rfl, rest⟩ := here.append_inj one (startsAnew_flatten later) (startsAnew_of_row row) whole
      exact .cons head (ih later rest)

theorem row_of_forall₂ {α τ : Type} {spelled : α → List τ → Prop} {items : List α}
    {pieces : List (List τ)} (all : List.Forall₂ spelled items pieces) :
    Row spelled items pieces.flatten := by
  induction all with
  | nil => exact .nil
  | cons one others ih => exact .cons one ih

/-- Whether `other` declares what `doc` does, each kind of declaration in whatever order. -/
structure Document.Reorders (doc other : Document) : Prop where
  package : doc.package = other.package
  pragmas : doc.pragmas = other.pragmas
  messages : doc.messages.Perm other.messages
  enumerations : doc.enumerations.Perm other.enumerations
  services : doc.services.Perm other.services

section reorders

variable {doc other : Document}

theorem Document.Reorders.unplaced (reorders : doc.Reorders other) :
    doc.unplaced.Reorders other.unplaced where
  package := reorders.package
  pragmas := reorders.pragmas
  messages := reorders.messages.map _
  enumerations := reorders.enumerations
  services := reorders.services

theorem Document.Reorders.mem_messages (reorders : doc.Reorders other) {name : String} :
    name ∈ doc.messages.map Message.name ↔ name ∈ other.messages.map Message.name :=
  (reorders.messages.map _).mem_iff

theorem FieldType.Resolved.of_reorders {type : FieldType} (reorders : doc.Reorders other)
    (resolved : type.Resolved doc) : type.Resolved other := by
  cases type with
  | builtin type => exact True.intro
  | message name => exact reorders.mem_messages.mp resolved
  | enumeration name =>
    obtain ⟨outside, inside⟩ := resolved
    refine ⟨fun member => outside (reorders.mem_messages.mpr member), ?_⟩
    exact (reorders.enumerations.map _).mem_iff.mp inside

theorem Document.WellFormed.of_reorders (reorders : doc.Reorders other) (wellFormed : doc.WellFormed) :
    other.WellFormed := by
  have types : doc.typeNames.Perm other.typeNames :=
    (reorders.messages.map _).append (reorders.enumerations.map _)
  constructor
  · exact fun name member => wellFormed.typesNamed name (types.mem_iff.mpr member)
  · exact fun name member => wellFormed.typesFree name (types.mem_iff.mpr member)
  · exact types.nodup_iff.mp wellFormed.typesDistinct
  · intro m member
    have proper := wellFormed.messages m (reorders.messages.mem_iff.mpr member)
    refine ⟨proper.named, proper.distinct, fun field within => ?_⟩
    exact (proper.resolved field within).of_reorders reorders
  · exact fun e member => wellFormed.enumerations e (reorders.enumerations.mem_iff.mpr member)
  · exact fun s member => wellFormed.servicesNamed s (reorders.services.mem_iff.mpr member)
  · exact (reorders.services.map _).nodup_iff.mp wellFormed.servicesDistinct
  · intro s member
    have proper := wellFormed.services s (reorders.services.mem_iff.mpr member)
    refine ⟨proper.named, proper.distinct, ?_, ?_⟩
    · intro p within name asked
      exact reorders.mem_messages.mp (proper.requests p within name asked)
    · intro p within name answered
      exact reorders.mem_messages.mp (proper.responses p within name answered)

theorem Document.Valid.of_reorders (reorders : doc.Reorders other) (valid : doc.Valid) :
    other.Valid where
  wellFormed := valid.wellFormed.of_reorders reorders
  filled e member := valid.filled e (reorders.enumerations.mem_iff.mpr member)
  acyclic name cycle := by
    -- What lies inside what depends on which messages there are only.
    have step : ∀ outer inner, Inlines other.messages outer inner → Inlines doc.messages outer inner := by
      rintro outer inner ⟨m, member, inlines⟩
      exact ⟨m, reorders.messages.mem_iff.mpr member, inlines⟩
    exact valid.acyclic name (Relation.TransGen.mono step _ _ cycle)
  pragmas := by
    rw [← reorders.pragmas]
    exact valid.pragmas

theorem exists_interleaves {items others : List Item} (whole : doc.Interleaves items)
    (permuted : items.Perm others) : ∃ other, doc.Reorders other ∧ other.Interleaves others := by
  refine ⟨⟨doc.package, doc.pragmas, others.filterMap Item.message?, others.filterMap Item.enumeration?,
    others.filterMap Item.service?⟩, ⟨rfl, rfl, ?_, ?_, ?_⟩, fun word => ?_, rfl, rfl, rfl⟩
  · rw [← whole.messages]
    exact permuted.filterMap _
  · rw [← whole.enumerations]
    exact permuted.filterMap _
  · rw [← whole.services]
    exact permuted.filterMap _
  · rw [← whole.pragmas]
    exact (permuted.filterMap _).mem_iff.symm

end reorders

/-- Whether a text is some declarations written down, with any white space and comments. -/
structure Declares (source : String) (pieces : List (List TokenKind)) : Prop where
  declared : ∀ d ∈ pieces, IsDeclaration d
  writable : ∀ kind ∈ pieces.flatten, kind.Writable
  written : Written false pieces.flatten source.toList

section texts

variable {source : String} {pieces others : List (List TokenKind)}

theorem Declares.kinds (declares : Declares source pieces) :
    (tokens source).map Token.kind = pieces.flatten :=
  kinds_scan declares.written declares.writable

theorem declares_of_kinds (declared : ∀ d ∈ pieces, IsDeclaration d)
    (kinds : (tokens source).map Token.kind = pieces.flatten) : Declares source pieces := by
  refine ⟨declared, ?_, ?_⟩ <;> rw [← kinds]
  · exact List.forall_mem_map.mpr writable_scan
  · exact written_scan fun first => nomatch first

theorem exists_parse_of_perm {package other : String} {doc : Document} (here : Declares source pieces)
    (there : Declares other others) (permuted : pieces.Perm others)
    (h : Document.parse package source = .ok doc) :
    ∃ read, Document.parse package other = .ok read ∧ doc.unplaced.Reorders read.unplaced := by
  obtain ⟨valid, rfl, items, whole, row⟩ := exists_row_of_ofTokens h
  rw [here.kinds] at row
  -- The declarations of the other text, in the order in which they stand there.
  have all : Relation.Comp (List.Forall₂ Item.Spelling) List.Perm items others :=
    ⟨pieces, forall₂_of_row row here.declared, permuted⟩
  rw [List.forall₂_comp_perm_eq_perm_comp_forall₂] at all
  obtain ⟨arranged, moved, spelled⟩ := all
  obtain ⟨next, reorders, interleaves⟩ := exists_interleaves whole moved
  have spells : Row Item.Spelling arranged ((tokens other).map Token.kind) := by
    rw [there.kinds]
    exact row_of_forall₂ spelled
  obtain ⟨read, parsed, same⟩ := exists_ofTokens (valid.of_reorders reorders) interleaves spells
  rw [← reorders.package] at parsed
  refine ⟨read, parsed, ?_⟩
  rw [same]
  exact reorders.unplaced

end texts

end BinaryCodec.Definition
