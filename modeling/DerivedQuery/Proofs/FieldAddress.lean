import DerivedQuery.Proofs.SinglePath
import DerivedQuery.Proofs.WordJunction
import Mathlib.Data.List.Infix

/-!
# Fields addressed by their names

A field inside nested structs is addressed by the names of the fields that lead to
it, written one after the other. In camel case the names do not run into each
other: each is cut into the words it has alone, and these spell it again. So the
joined names resolve to a single path, and where only one chain of fields has them
it is the path of that chain.
-/

namespace DerivedQuery

/-- Names of letters and digits that stay apart when they are written one after the
other: each but the first starts with a capital, and each but the last ends with a
small letter or a digit. -/
structure CamelCase (names : List String) : Prop where
  nonempty : ∀ name ∈ names, name ≠ ""
  alphanumeric : ∀ name ∈ names, ∀ char ∈ name.toList, char.isAlphanum
  opens : ∀ name ∈ names.tail, ∃ char, name.toList.head? = some char ∧ char.isUpper
  closes : ∀ name ∈ names.dropLast,
    ∃ char, name.toList.getLast? = some char ∧ (char.isLower ∨ char.isDigit)

namespace CamelCase

variable {name : String}
variable {names : List String}

theorem tail (camelCase : CamelCase (name :: names)) : CamelCase names where
  nonempty other member := camelCase.nonempty other (List.mem_cons_of_mem name member)
  alphanumeric other member := camelCase.alphanumeric other (List.mem_cons_of_mem name member)
  opens other member := camelCase.opens other (List.mem_of_mem_tail member)
  closes other member := by
    have nonempty : names ≠ [] := List.ne_nil_of_mem (List.mem_of_mem_dropLast member)
    refine camelCase.closes other ?_
    rw [List.dropLast_cons_of_ne_nil nonempty]
    exact List.mem_cons_of_mem name member

/-- A name does not run into those behind it. -/
theorem boundary
    (camelCase : CamelCase (name :: names)) :
    Word.Boundary name.toList (String.join names).toList := by
  cases names with
  | nil =>
      intro left _ right isFirst
      cases isFirst
  | cons next others =>
      obtain ⟨capital, isFirst, isUpper⟩ := camelCase.opens next List.mem_cons_self
      obtain ⟨last, isLast, closes⟩ := camelCase.closes name List.mem_cons_self
      obtain ⟨rest, next_eq⟩ := List.head?_eq_some_iff.mp isFirst
      rw [String.join_cons, String.toList_append, next_eq, List.cons_append]
      refine Word.boundary_of_not_upper (CharClass.of_eq_upper_iff.mpr isUpper) ?_
      rw [isLast]
      rintro _ ⟨⟩ lastUpper
      rcases closes with isLower | isDigit
      · rw [CharClass.of_eq_lower_iff.mpr isLower] at lastUpper
        cases lastUpper
      · rw [CharClass.of_eq_digit_iff.mpr isDigit] at lastUpper
        cases lastUpper

end CamelCase

namespace Word

theorem flatMap_text_segment
    {descriptor : String}
    (alphanumeric : ∀ char ∈ descriptor.toList, char.isAlphanum) :
    (segment descriptor).flatMap (·.text.toList) = descriptor.toList := by
  have joined := congrArg String.toList (join_texts_segment alphanumeric)
  rwa [String.toList_join, texts, List.flatMap_map] at joined

end Word

namespace FieldPath

variable {chain : List Field}
variable {run : List Word}

theorem Spells.map_shift
    (spells : Spells chain run)
    (distance : Nat) :
    Spells chain (run.map (Word.shift distance)) := by
  induction spells with
  | nil => exact .nil
  | cons nonempty spelled further hypothesis =>
      rw [List.map_append]
      refine .cons (by simpa using nonempty) ?_ hypothesis
      rw [List.flatMap_map]
      exact spelled

/-- Joined names are the joined texts of the words that spell them. -/
theorem Spells.toList_join
    (spells : Spells chain run) :
    (String.join (chain.map FieldOf.name)).toList = run.flatMap (·.text.toList) := by
  rw [String.toList_join, List.flatMap_map]
  induction spells with
  | nil => rfl
  | cons nonempty spelled further hypothesis =>
      rw [List.flatMap_cons, hypothesis, List.flatMap_append, spelled]

end FieldPath

/-- Names in camel case, written one after the other, are cut into words that spell
each of them. -/
theorem CamelCase.spells_segment
    {chain : List Field}
    (camelCase : CamelCase (chain.map FieldOf.name)) :
    FieldPath.Spells chain (Word.segment (String.join (chain.map FieldOf.name))) := by
  induction chain with
  | nil => exact .nil
  | cons field fields hypothesis =>
      rw [List.map_cons] at camelCase ⊢
      have spelled := Word.flatMap_text_segment
        (camelCase.alphanumeric field.name List.mem_cons_self)
      have nonempty : Word.segment field.name ≠ [] := by
        intro nothing
        rw [nothing] at spelled
        exact camelCase.nonempty field.name List.mem_cons_self
          (String.toList_eq_nil_iff.mp spelled.symm)
      rw [String.join_cons, Word.segment_append camelCase.boundary]
      exact .cons nonempty spelled ((hypothesis camelCase.tail).map_shift _)

namespace FieldPath

variable {schema : Schema}
variable {chain : List Field}
variable {run : List Word}

/-- Words that spell the names of a chain of fields resolve to a single path. -/
theorem exists_resolve_of_spells
    (leads : schema.Chain chain)
    (spells : Spells chain run)
    (texts : ∀ word ∈ run, word.text ≠ "") :
    ∃ path, resolve schema run = .ok path := by
  obtain ⟨indices, leadsAt⟩ := leads.exists_chainAt
  let reading : Reading schema := ⟨indices, chain, run, leadsAt, spells⟩
  obtain ⟨readings, map_eq, -, members⟩ := Reading.enumerated schema texts
  have member : reading.path ∈ schema.candidates run := by
    rw [← map_eq]
    exact List.mem_map_of_mem ((members reading).mpr List.prefix_rfl)
  exact exists_resolve_of_mem reading.words_ne_nil member rfl

/-- A resolved path is that of any chain spelled by its words, if the names of no
other chain join to the same text. -/
theorem key_type_of_resolve
    {path : FieldPath}
    (resolved : resolve schema run = .ok path)
    (spells : Spells chain run)
    (alone : ∀ other, schema.Chain other ->
      String.join (other.map FieldOf.name) = String.join (chain.map FieldOf.name) ->
        other = chain) :
    path.key = ".".intercalate (chain.map FieldOf.storageKey) ∧
      chain.getLast?.map FieldOf.type = some path.type := by
  obtain ⟨whole, other, through⟩ := through_of_resolve resolved
  have otherSpells := through.spells
  rw [whole, List.take_length] at otherSpells
  have joined : String.join (other.map FieldOf.name) = String.join (chain.map FieldOf.name) := by
    rw [← String.toList_inj, otherSpells.toList_join, spells.toList_join]
  obtain rfl := alone other through.leads joined
  exact ⟨through.key_eq.symm, through.type_eq⟩

/-- A chain of fields with names in camel case is found from the names written one
after the other: they resolve to a single path that takes all their words. If no
other chain has the same joined names, the path has the dotted key of the chain and
the type of its last field. -/
theorem resolve_joined_names
    (schema : Schema)
    (chain : List Field)
    (leads : schema.Chain chain)
    (camelCase : CamelCase (chain.map FieldOf.name)) :
    ∃ path,
      resolve schema (Word.segment (String.join (chain.map FieldOf.name))) = .ok path ∧
      path.consumed = (Word.segment (String.join (chain.map FieldOf.name))).length ∧
      ((∀ other, schema.Chain other ->
          String.join (other.map FieldOf.name) = String.join (chain.map FieldOf.name) ->
            other = chain) ->
        path.key = ".".intercalate (chain.map FieldOf.storageKey) ∧
          chain.getLast?.map FieldOf.type = some path.type) := by
  have spells := camelCase.spells_segment
  obtain ⟨path, resolved⟩ := exists_resolve_of_spells leads spells
    fun word present => Word.text_ne_empty_of_mem_segment present
  exact ⟨path, resolved, (through_of_resolve resolved).1, key_type_of_resolve resolved spells⟩

/-- A name with a digit at its end in front of one that starts with an acronym.
Other fields have names that start these. -/
theorem resolve_joined_names_acronym :
    let port : Field := ⟨"HTTPPort", "http_port", .ident "int", none⟩
    let server : Schema := ⟨"Server", [⟨"HTTP", "http", .ident "bool", none⟩, port]⟩
    let second : Field := ⟨"Server2", "second", .ident "Server", some server⟩
    let schema : Schema := ⟨"Host", [⟨"Server", "name", .ident "string", none⟩, second]⟩
    schema.Chain [second, port] ∧ CamelCase ["Server2", "HTTPPort"] ∧
      ∃ path, resolve schema (Word.segment "Server2HTTPPort") = .ok path ∧
        path.consumed = 4 ∧ path.key = "second.http_port" ∧ path.type = .ident "int" := by
  intro port server second schema
  have leads : schema.Chain [second, port] :=
    .into (by simp [schema]) rfl (.last (by simp [server]))
  have camelCase : CamelCase ["Server2", "HTTPPort"] := by
    constructor <;> simp
  have joined : String.join ([second, port].map FieldOf.name) = "Server2HTTPPort" := by
    decide +kernel
  have alone (other : List Field) (otherLeads : schema.Chain other)
      (same : String.join (other.map FieldOf.name) = String.join ([second, port].map FieldOf.name)) :
      other = [second, port] := by
    rw [joined] at same
    cases otherLeads with
    | last member =>
        simp only [schema, List.mem_cons, List.not_mem_nil, or_false] at member
        rcases member with rfl | rfl
        · simp at same
        · simp [second] at same
    | into member nested further =>
        simp only [schema, List.mem_cons, List.not_mem_nil, or_false] at member
        rcases member with rfl | rfl <;> cases nested
        cases further with
        | last member =>
            simp only [server, List.mem_cons, List.not_mem_nil, or_false] at member
            rcases member with rfl | rfl
            · simp [second] at same
            · rfl
        | into member nested further =>
            simp only [server, List.mem_cons, List.not_mem_nil, or_false] at member
            rcases member with rfl | rfl <;> cases nested
  obtain ⟨path, resolved, whole, unique⟩ :=
    resolve_joined_names schema [second, port] leads camelCase
  obtain ⟨key_eq, type_eq⟩ := unique alone
  rw [joined] at resolved whole
  refine ⟨leads, camelCase, path, resolved, whole.trans (by decide +kernel), key_eq, ?_⟩
  exact (Option.some.inj type_eq).symm

end FieldPath
end DerivedQuery
