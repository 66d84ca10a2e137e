import Dataflow.Proofs.Acceptance
import Dataflow.Proofs.JsonText
import Dataflow.Proofs.RoundTrip
import Dataflow.UnitFile
import Mathlib.Data.List.Forall2

/-! Loading is all or nothing. If every file can be read, holds units, and all units are valid, the graphs of
all files come in the order of files and units; otherwise there is one fault, that of the first file or unit at
fault. How units are spread over files does not matter: a bundle of units loads as they load one by one, as long
as none of them could be taken for a bundle itself, and no written unit can. -/

namespace Dataflow

section

variable {ε α β : Type} {f : α → Except ε β}

theorem mapM_eq_ok {xs : List α} {ys : List β} :
    xs.mapM f = .ok ys ↔ List.Forall₂ (fun x y => f x = .ok y) xs ys := by
  induction xs generalizing ys with
  | nil => simp [pure, Except.pure, eq_comm]
  | cons x rest ih =>
    rw [List.mapM_cons, bind_eq_ok, List.forall₂_cons_left_iff]
    constructor
    · rintro ⟨y, here, done⟩
      obtain ⟨others, later, done⟩ := bind_eq_ok.mp done
      cases done
      exact ⟨y, others, here, ih.mp later, rfl⟩
    · rintro ⟨y, others, here, later, rfl⟩
      exact ⟨y, here, bind_eq_ok.mpr ⟨others, ih.mpr later, rfl⟩⟩

/-- All or nothing: there is a result if every element has one. -/
theorem mapM_succeeds {xs : List α} : (∃ ys, xs.mapM f = .ok ys) ↔ ∀ x ∈ xs, ∃ y, f x = .ok y := by
  induction xs with
  | nil => simp [pure, Except.pure]
  | cons x rest ih =>
    rw [List.forall_mem_cons, ← ih, List.mapM_cons]
    constructor
    · rintro ⟨_, done⟩
      obtain ⟨y, here, done⟩ := bind_eq_ok.mp done
      obtain ⟨others, later, _⟩ := bind_eq_ok.mp done
      exact ⟨⟨y, here⟩, others, later⟩
    · rintro ⟨⟨y, here⟩, others, later⟩
      exact ⟨y :: others, bind_eq_ok.mpr ⟨y, here, bind_eq_ok.mpr ⟨others, later, rfl⟩⟩⟩

theorem bind_eq_error {x : Except ε α} {next : α → Except ε β} {e : ε} :
    (x >>= next) = .error e ↔ x = .error e ∨ ∃ a, x = .ok a ∧ next a = .error e := by
  cases x <;> simp [bind, Except.bind]

/-- The error is that of the first element that has one. -/
theorem mapM_eq_error {xs : List α} {e : ε} :
    xs.mapM f = .error e ↔ ∃ before x after, xs = before ++ x :: after ∧
      (∀ y ∈ before, ∃ b, f y = .ok b) ∧ f x = .error e := by
  induction xs with
  | nil => simp [pure, Except.pure]
  | cons x rest ih =>
    rw [List.mapM_cons, bind_eq_error]
    constructor
    · rintro (here | ⟨value, here, later⟩)
      · exact ⟨[], x, rest, rfl, by simp, here⟩
      · rcases bind_eq_error.mp later with later | ⟨_, _, ⟨⟩⟩
        obtain ⟨before, y, after, rfl, earlier, there⟩ := ih.mp later
        exact ⟨x :: before, y, after, rfl, List.forall_mem_cons.mpr ⟨⟨value, here⟩, earlier⟩, there⟩
    · rintro ⟨_ | ⟨first, before⟩, y, after, split, earlier, there⟩
      · cases split
        exact .inl there
      · cases split
        obtain ⟨⟨value, here⟩, earlier⟩ := List.forall_mem_cons.mp earlier
        exact .inr ⟨value, here, bind_eq_error.mpr (.inl (ih.mpr ⟨before, y, after, rfl, earlier, there⟩))⟩

theorem mapError_eq_ok {δ : Type} {g : ε → δ} {x : Except ε α} {a : α} :
    x.mapError g = .ok a ↔ x = .ok a := by
  cases x <;> simp [Except.mapError]

theorem mapError_eq_error {δ : Type} {g : ε → δ} {x : Except ε α} {d : δ} :
    x.mapError g = .error d ↔ ∃ e, x = .error e ∧ g e = d := by
  cases x <;> simp [Except.mapError]

end

@[simp] theorem Json.fitsDouble_obj (members : List (String × Json)) :
    (Json.obj members).fitsDouble = membersFit members := rfl

theorem Json.membersFit_iff {members : List (String × Json)} :
    membersFit members = true ↔ ∀ m ∈ members, m.2.fitsDouble = true := by
  induction members with
  | nil => simp [membersFit]
  | cons m rest ih => simp [membersFit, ih]

/-- Every edge of the unit is valid. -/
def Description.Valid {I : Type} (d : Description I) : Prop := ∀ e ∈ d.edges, e.Valid d.instructions.length

theorem Description.valid_iff {I : Type} {d : Description I} : d.Valid ↔ ∃ g, d.toGraph = .ok g := by
  constructor
  · exact fun valid => ⟨_, toGraph_eq_ok.mpr ⟨valid, rfl⟩⟩
  · rintro ⟨g, accepted⟩
    exact (toGraph_eq_ok.mp accepted).1

namespace UnitFile

variable {read : String → Except ReadFault String} {path : String}

/-! What a file holds. -/

/-- What a JSON value has to say: a bundle if it is one, else a single unit. -/
inductive Decodes (j : Json) : List (Description Instruction) → Prop where
  | bundle {units : List (Description Instruction)} : bundle? j = some units → Decodes j units
  | single {unit : Description Instruction} : bundle? j = none → unit? j = some unit → Decodes j [unit]

/-- The file can be read, and its text is one JSON value. -/
def Stores (read : String → Except ReadFault String) (path : String) (j : Json) : Prop :=
  ∃ text, read path = .ok text ∧ Json.read? .kept room text = some j

/-- The units of a file. No number in it overflows. -/
def Holds (read : String → Except ReadFault String) (path : String)
    (units : List (Description Instruction)) : Prop :=
  ∃ j, Stores read path j ∧ j.fitsDouble = true ∧ Decodes j units

theorem ofJson?_eq_some {j : Json} {units : List (Description Instruction)} :
    ofJson? j = some units ↔ Decodes j units := by
  unfold ofJson?
  cases bundled : bundle? j with
  | some bundle =>
    constructor
    · rintro ⟨⟩
      exact .bundle bundled
    · rintro (same | ⟨none, _⟩)
      · exact bundled.symm.trans same
      · cases bundled.symm.trans none
  | none =>
    constructor
    · intro single
      obtain ⟨unit, read, rfl⟩ := Option.map_eq_some_iff.mp single
      exact .single bundled read
    · rintro (bundle | ⟨_, read⟩)
      · cases bundled.symm.trans bundle
      · exact Option.map_eq_some_iff.mpr ⟨_, read, rfl⟩

theorem ofJson?_eq_none {j : Json} : ofJson? j = none ↔ ∀ units, ¬Decodes j units := by
  simp only [← ofJson?_eq_some, Option.eq_none_iff_forall_ne_some, ne_eq]

theorem ofText_eq_ok {text : String} {units : List (Description Instruction)} :
    ofText path text = .ok units ↔
      ∃ j, Json.read? .kept room text = some j ∧ j.fitsDouble = true ∧ Decodes j units := by
  simp only [← ofJson?_eq_some]
  unfold ofText Json.read?
  cases Json.readFront? .kept room text with
  | none => simp
  | some found =>
    obtain ⟨j, rest⟩ := found
    dsimp only
    by_cases fits : j.fitsDouble = true <;> by_cases blank : Json.onlyBlank rest = true <;>
      cases decoded : ofJson? j <;> simp [fits, blank, decoded]

/-- What is wrong with the text of a file, by the first check that it fails. -/
inductive Misread (path text : String) : LoadFault → Prop where
  /-- No value stands in front, or a number in it overflows. -/
  | noValue : (∀ j rest, Json.readFront? .kept room text = some (j, rest) → j.fitsDouble = false) →
      Misread path text (.malformed path)
  | noUnits {j : Json} {rest : String} : Json.readFront? .kept room text = some (j, rest) →
      j.fitsDouble = true → (∀ units, ¬Decodes j units) → Misread path text (.unfit path)
  /-- There is more than the value. -/
  | trailing {j : Json} {rest : String} {units : List (Description Instruction)} :
      Json.readFront? .kept room text = some (j, rest) → j.fitsDouble = true → Decodes j units →
      Json.onlyBlank rest = false → Misread path text (.malformed path)

theorem ofText_eq_error {text : String} {fault : LoadFault} :
    ofText path text = .error fault ↔ Misread path text fault := by
  unfold ofText
  constructor
  · intro failed
    cases front : Json.readFront? .kept room text with
    | none =>
      simp only [front] at failed
      cases failed
      exact .noValue (by simp [front])
    | some found =>
      obtain ⟨j, rest⟩ := found
      simp only [front] at failed
      split at failed
      · rename_i fits
        split at failed
        · cases failed
          exact .noUnits front fits (ofJson?_eq_none.mp ‹_›)
        · split at failed
          · contradiction
          · cases failed
            exact .trailing front fits (ofJson?_eq_some.mp ‹_›) (Bool.eq_false_iff.mpr ‹_›)
      · cases failed
        refine .noValue fun other more same => ?_
        cases front.symm.trans same
        exact Bool.eq_false_iff.mpr ‹_›
  · rintro (none | ⟨front, fits, none⟩ | ⟨front, fits, some, more⟩)
    · cases front : Json.readFront? .kept room text with
      | none => rfl
      | some found => simp [none found.1 found.2 front]
    · simp [front, fits, ofJson?_eq_none.mpr none]
    · simp [front, fits, ofJson?_eq_some.mpr some, more]

/-! One file and all files. -/

theorem graphOf_eq_ok {d : Description Instruction} {g : Graph Instruction} :
    graphOf path d = .ok g ↔ d.toGraph = .ok g :=
  mapError_eq_ok

theorem mapM_graphOf_eq_ok {units : List (Description Instruction)} {graphs : List (Graph Instruction)} :
    units.mapM (graphOf path) = .ok graphs ↔ units.mapM Description.toGraph = .ok graphs := by
  simp only [mapM_eq_ok, graphOf_eq_ok]

theorem load_eq_ok {graphs : List (Graph Instruction)} :
    load read path = .ok graphs ↔ ∃ units, Holds read path units ∧ units.mapM Description.toGraph = .ok graphs := by
  simp only [load, bind_eq_ok, mapError_eq_ok, mapM_graphOf_eq_ok, ofText_eq_ok]
  constructor
  · rintro ⟨text, readable, units, ⟨j, reads, fits, decodes⟩, accepted⟩
    exact ⟨units, ⟨j, ⟨text, readable, reads⟩, fits, decodes⟩, accepted⟩
  · rintro ⟨units, ⟨j, ⟨text, readable, reads⟩, fits, decodes⟩, accepted⟩
    exact ⟨text, readable, units, ⟨j, reads, fits, decodes⟩, accepted⟩

/-- The file holds units, and all of them are valid. -/
def Loadable (read : String → Except ReadFault String) (path : String) : Prop :=
  ∃ units, Holds read path units ∧ ∀ d ∈ units, d.Valid

theorem load_succeeds : (∃ graphs, load read path = .ok graphs) ↔ Loadable read path := by
  simp only [load_eq_ok, Loadable, Description.valid_iff, ← mapM_succeeds]
  exact ⟨fun ⟨graphs, units, holds, accepted⟩ => ⟨units, holds, graphs, accepted⟩,
    fun ⟨units, holds, graphs, accepted⟩ => ⟨graphs, units, holds, accepted⟩⟩

/-- What is wrong with a file. Of its units, the first that is not valid is reported. -/
inductive Fails (read : String → Except ReadFault String) (path : String) : LoadFault → Prop where
  | unreadable {fault : ReadFault} : read path = .error fault → Fails read path (.unreadable path fault)
  | misread {text : String} {fault : LoadFault} : read path = .ok text → Misread path text fault →
      Fails read path fault
  | invalid {before after : List (Description Instruction)} {d : Description Instruction} {fault : GraphFault} :
      Holds read path (before ++ d :: after) → (∀ x ∈ before, x.Valid) → d.toGraph = .error fault →
      Fails read path (.invalid d.name path fault)

theorem load_eq_error {fault : LoadFault} : load read path = .error fault ↔ Fails read path fault := by
  simp only [load, bind_eq_error, mapError_eq_error, mapError_eq_ok, ofText_eq_error, ofText_eq_ok, mapM_eq_error,
    graphOf, ← Description.valid_iff]
  constructor
  · rintro (⟨cause, unreadable, rfl⟩ | ⟨text, readable, misread | ⟨units, ⟨j, reads, fits, decodes⟩, refused⟩⟩)
    · exact .unreadable unreadable
    · exact .misread readable misread
    · obtain ⟨before, d, after, rfl, earlier, cause, refused, rfl⟩ := refused
      exact .invalid ⟨j, ⟨text, readable, reads⟩, fits, decodes⟩ earlier refused
  · rintro (unreadable | ⟨readable, misread⟩ | ⟨⟨j, ⟨text, readable, reads⟩, fits, decodes⟩, earlier, refused⟩)
    · exact .inl ⟨_, unreadable, rfl⟩
    · exact .inr ⟨_, readable, .inl misread⟩
    · exact .inr ⟨text, readable, .inr ⟨_, ⟨j, reads, fits, decodes⟩, _, _, _, rfl, earlier, _, refused, rfl⟩⟩

theorem loadAll_nil (read : String → Except ReadFault String) : loadAll read [] = .ok [] := rfl

theorem loadAll_cons (read : String → Except ReadFault String) (path : String) (rest : List String) :
    loadAll read (path :: rest) = do return (← load read path) ++ (← loadAll read rest) := by
  simp [loadAll]

theorem loadAll_eq_ok {paths : List String} {graphs : List (Graph Instruction)} :
    loadAll read paths = .ok graphs ↔ ∃ files, List.Forall₂ (Holds read) paths files ∧
      files.flatten.mapM Description.toGraph = .ok graphs := by
  induction paths generalizing graphs with
  | nil => simp [loadAll_nil, pure, Except.pure]
  | cons path rest ih =>
    simp only [loadAll_cons, bind_eq_ok, load_eq_ok, ih, List.forall₂_cons_left_iff]
    constructor
    · rintro ⟨first, ⟨units, holds, accepted⟩, others, ⟨files, held, later⟩, ⟨⟩⟩
      refine ⟨units :: files, ⟨units, files, holds, held, rfl⟩, ?_⟩
      rw [List.flatten_cons, List.mapM_append]
      exact bind_eq_ok.mpr ⟨first, accepted, bind_eq_ok.mpr ⟨others, later, rfl⟩⟩
    · rintro ⟨_, ⟨units, files, holds, held, rfl⟩, done⟩
      rw [List.flatten_cons, List.mapM_append] at done
      obtain ⟨first, accepted, done⟩ := bind_eq_ok.mp done
      obtain ⟨others, later, done⟩ := bind_eq_ok.mp done
      cases done
      exact ⟨first, ⟨units, holds, accepted⟩, others, ⟨files, held, later⟩, rfl⟩

theorem loadAll_built {paths : List String} {graphs : List (Graph Instruction)}
    (loaded : loadAll read paths = .ok graphs) : ∀ g ∈ graphs, g.Built := by
  obtain ⟨files, _, accepted⟩ := loadAll_eq_ok.mp loaded
  have described := mapM_eq_ok.mp accepted
  generalize files.flatten = units at described
  clear loaded accepted
  induction described with
  | nil => exact List.forall_mem_nil _
  | cons here _ ih => exact List.forall_mem_cons.mpr ⟨Description.toGraph_built here, ih⟩

theorem loadAll_succeeds {paths : List String} :
    (∃ graphs, loadAll read paths = .ok graphs) ↔ ∀ path ∈ paths, Loadable read path := by
  simp only [← load_succeeds, ← mapM_succeeds, loadAll, bind_eq_ok]
  exact ⟨fun ⟨_, files, loaded, _⟩ => ⟨files, loaded⟩, fun ⟨files, loaded⟩ => ⟨_, files, loaded, rfl⟩⟩

theorem loadAll_eq_error {paths : List String} {fault : LoadFault} :
    loadAll read paths = .error fault ↔ ∃ before path after, paths = before ++ path :: after ∧
      (∀ x ∈ before, Loadable read x) ∧ Fails read path fault := by
  simp only [← load_succeeds, ← load_eq_error, ← mapM_eq_error, loadAll, bind_eq_error]
  constructor
  · rintro (failed | ⟨_, _, ⟨⟩⟩)
    exact failed
  · exact .inl

/-! Bundles. -/

theorem Stores.unique {j k : Json} (first : Stores read path j) (second : Stores read path k) : j = k := by
  obtain ⟨text, readable, reads⟩ := first
  obtain ⟨other, readable', reads'⟩ := second
  cases readable.symm.trans readable'
  exact Option.some.inj (reads.symm.trans reads')

theorem holds_of_stores {j : Json} (stored : Stores read path j) {units : List (Description Instruction)} :
    Holds read path units ↔ j.fitsDouble = true ∧ Decodes j units := by
  constructor
  · rintro ⟨k, stored', fits, decodes⟩
    cases stored.unique stored'
    exact ⟨fits, decodes⟩
  · exact fun ⟨fits, decodes⟩ => ⟨j, stored, fits, decodes⟩

/-- The value describes one unit, which has this graph. -/
def Shows (j : Json) (g : Graph Instruction) : Prop :=
  j.fitsDouble = true ∧ ∃ d, unit? j = some d ∧ d.toGraph = .ok g

theorem load_single {j : Json} (stored : Stores read path j) (single : bundle? j = none)
    {graphs : List (Graph Instruction)} : load read path = .ok graphs ↔ ∃ g, Shows j g ∧ graphs = [g] := by
  simp only [load_eq_ok, holds_of_stores stored, mapM_eq_ok]
  constructor
  · rintro ⟨_, ⟨fits, bundle | ⟨_, described⟩⟩, accepted⟩
    · cases single.symm.trans bundle
    · obtain ⟨g, _, here, ⟨⟩, rfl⟩ := List.forall₂_cons_left_iff.mp accepted
      exact ⟨g, ⟨fits, _, described, here⟩, rfl⟩
  · rintro ⟨g, ⟨fits, d, described, accepted⟩, rfl⟩
    exact ⟨[d], ⟨fits, .single single described⟩, .cons accepted .nil⟩

theorem loadAll_singles {paths : List String} {js : List Json} (stored : List.Forall₂ (Stores read) paths js)
    (single : ∀ j ∈ js, bundle? j = none) {graphs : List (Graph Instruction)} :
    loadAll read paths = .ok graphs ↔ List.Forall₂ Shows js graphs := by
  induction stored generalizing graphs with
  | nil => simp [loadAll_nil, eq_comm]
  | cons here _ ih =>
    obtain ⟨first, others⟩ := List.forall_mem_cons.mp single
    simp only [loadAll_cons, bind_eq_ok, load_single here first, ih others, List.forall₂_cons_left_iff]
    constructor
    · rintro ⟨_, ⟨g, shows, rfl⟩, rest, later, ⟨⟩⟩
      exact ⟨g, rest, shows, later, rfl⟩
    · rintro ⟨g, rest, shows, later, rfl⟩
      exact ⟨[g], ⟨g, shows, rfl⟩, rest, later, rfl⟩

/-- The bundle of some units. -/
def bundleJson (units : List Json) : Json := .obj [("units", .arr units)]

theorem fitsDouble_bundleJson (units : List Json) : (bundleJson units).fitsDouble = Json.itemsFit units := by
  simp [bundleJson, Json.membersFit]

/-- A bundle has no name, so it cannot be taken for a unit. -/
theorem unit?_bundleJson (units : List Json) : unit? (bundleJson units) = none := by
  simp [bundleJson, unit?, Description.ofJson, Json.foldMembers, Description.Draft.finish, Description.Draft.empty,
    Json.required, bind, Except.bind, Except.toOption]

theorem decodes_bundleJson {js : List Json} {units : List (Description Instruction)} :
    Decodes (bundleJson js) units ↔ js.mapM unit? = some units := by
  have bundled : bundle? (bundleJson js) = js.mapM unit? := by simp [bundleJson, bundle?, Json.knownMembers?]
  constructor
  · rintro (bundle | ⟨_, described⟩)
    · exact bundled.symm.trans bundle
    · cases (unit?_bundleJson js).symm.trans described
  · exact fun read => .bundle (bundled.trans read)

theorem shows_items {js : List Json} {graphs : List (Graph Instruction)} :
    (Json.itemsFit js = true ∧ ∃ units, js.mapM unit? = some units ∧
      units.mapM Description.toGraph = .ok graphs) ↔ List.Forall₂ Shows js graphs := by
  induction js generalizing graphs with
  | nil => simp [Json.itemsFit, pure, Except.pure, eq_comm]
  | cons j rest ih =>
    simp only [Json.itemsFit, Bool.and_eq_true, List.mapM_cons, Option.bind_eq_bind, Option.bind_eq_some_iff,
      List.forall₂_cons_left_iff, ← ih]
    constructor
    · rintro ⟨⟨fits, restFits⟩, _, ⟨d, described, units, later, ⟨⟩⟩, accepted⟩
      rw [List.mapM_cons] at accepted
      obtain ⟨g, here, accepted⟩ := bind_eq_ok.mp accepted
      obtain ⟨others, restAccepted, ⟨⟩⟩ := bind_eq_ok.mp accepted
      exact ⟨g, others, ⟨fits, d, described, here⟩, ⟨restFits, units, later, restAccepted⟩, rfl⟩
    · rintro ⟨g, others, ⟨fits, d, described, here⟩, ⟨restFits, units, later, restAccepted⟩, rfl⟩
      refine ⟨⟨fits, restFits⟩, d :: units, ⟨d, described, units, later, rfl⟩, ?_⟩
      rw [List.mapM_cons]
      exact bind_eq_ok.mpr ⟨g, here, bind_eq_ok.mpr ⟨others, restAccepted, rfl⟩⟩

theorem load_bundle {js : List Json} (stored : Stores read path (bundleJson js))
    {graphs : List (Graph Instruction)} : load read path = .ok graphs ↔ List.Forall₂ Shows js graphs := by
  simp only [load_eq_ok, holds_of_stores stored, fitsDouble_bundleJson, decodes_bundleJson, ← shows_items]
  constructor
  · exact fun ⟨units, ⟨fits, read⟩, accepted⟩ => ⟨fits, units, read, accepted⟩
  · exact fun ⟨fits, units, read, accepted⟩ => ⟨units, ⟨fits, read⟩, accepted⟩

/-- A bundle loads as its units do one by one. -/
theorem loadAll_bundle {bundle : String} {paths : List String} {js : List Json}
    (bundled : Stores read bundle (bundleJson js)) (stored : List.Forall₂ (Stores read) paths js)
    (single : ∀ j ∈ js, bundle? j = none) {graphs : List (Graph Instruction)} :
    loadAll read [bundle] = .ok graphs ↔ loadAll read paths = .ok graphs := by
  have alone : loadAll read [bundle] = load read bundle := by
    rw [loadAll_cons, loadAll_nil]
    cases load read bundle <;> simp [bind, Except.bind, pure, Except.pure]
  rw [alone, load_bundle bundled, loadAll_singles stored single]

/-! Written units. -/

theorem plain_operand (room : Nat) (operand : Operand) : Json.Plain room operand.toJson := by
  cases operand with
  | null => exact .null room
  | int value => exact .int room value.toInt
  | var name => exact .str room name

theorem plain_instruction (room : Nat) (i : Instruction) : Json.Plain (room + 2) i.toJson := by
  cases i <;> refine .obj ?_ <;> simp [Json.Plain.str, plain_operand, Json.plain_optional, Json.plain_list]

theorem plain_edge (room : Nat) (e : EdgeDescription) : Json.Plain (room + 1) e.toJson := by
  have endpoint (x : Endpoint) : Json.Plain room x.toJson := by
    cases x with
    | start | finish => exact .str room _
    | instruction position => exact .int room position
  refine .obj ?_
  simp [endpoint, Json.Plain.str]

theorem plain_description (room : Nat) (d : Description Instruction) :
    Json.Plain (room + 4) (d.toJson Instruction.toJson) := by
  refine .obj ?_
  simp [Json.Plain.str, Json.plain_list, plain_instruction, plain_edge]

theorem fits_instruction (i : Instruction) : i.toJson.fitsDouble = true := by
  obtain ⟨kind, fields, written, _, fits, _⟩ := i.toJson_tagged
  have others : Json.membersFit fields = true := Json.membersFit_iff.mpr fits
  simp [written, Json.membersFit, others]

theorem fits_edge {e : EdgeDescription} (addressable : e.Addressable) : e.toJson.fitsDouble = true := by
  have endpoint (x : Endpoint) (addressable : x.Addressable) : x.toJson.fitsDouble = true := by
    cases x with
    | start | finish => rfl
    | instruction position =>
      have small : position < UInt64.size := addressable
      simp [Endpoint.toJson, Json.fitsDouble, Json.overflows, small]
  have source := endpoint e.source addressable.1
  have target := endpoint e.target addressable.2
  simp [EdgeDescription.toJson, Json.membersFit, source, target]

theorem fits_description {d : Description Instruction} (addressable : d.Addressable) :
    (d.toJson Instruction.toJson).fitsDouble = true := by
  have instructions : Json.itemsFit (d.instructions.map Instruction.toJson) = true :=
    Json.itemsFit_iff.mpr (List.forall_mem_map.mpr fun i _ => fits_instruction i)
  have edges : Json.itemsFit (d.edges.map EdgeDescription.toJson) = true :=
    Json.itemsFit_iff.mpr (List.forall_mem_map.mpr fun e member => fits_edge (addressable e member))
  simp [Description.toJson, Json.membersFit, instructions, edges]

/-- The two ways to write a value. -/
inductive Layout where
  | compact
  | indented

def Layout.write : Layout → Json → String
  | .compact, j => j.compact
  | .indented, j => j.pretty

theorem readAs_written {room : Nat} {j : Json} (plain : Json.Plain room j) (layout : Layout) :
    Json.ReadAs room (layout.write j).toList j := by
  cases layout with
  | compact => exact Json.readAs_compact plain
  | indented => exact Json.readAs_prettyAt plain 0

/-- The text of a bundle, from the texts of its units. -/
def bundleText (texts : List String) : String :=
  "\x7b\"units\": [" ++ ", ".intercalate texts ++ "]\x7d"

theorem readAs_bundleText {α : Type} {room : Nat} {text : α → String} {value : α → Json} {units : List α}
    (each : ∀ u ∈ units, Json.ReadAs room (text u).toList (value u)) :
    Json.ReadAs (room + 2) (bundleText (units.map text)).toList (bundleJson (units.map value)) := by
  have blank : Json.Blank [' '] := by simp [Json.Blank, Json.isBlank]
  have list : Json.ReadAs (room + 1) ('[' :: ((", ".intercalate (units.map text)).toList ++ [']']))
      (.arr (units.map value)) := by
    by_cases nonempty : units = []
    · subst nonempty
      exact Json.readAs_noItems room
    · have reads := Json.readAs_arr Json.blank_nil blank Json.blank_nil each nonempty
      simpa [String.toList_intercalate, Function.comp_def] using reads
  have member : ∀ _ ∈ [()], Json.ReadAs (room + 1) _ (.arr (units.map value)) := fun _ _ => list.pad blank
  have reads := Json.readAs_obj Json.blank_nil Json.blank_nil Json.blank_nil member (List.cons_ne_nil _ _)
    Json.blank_nil fun _ => "units"
  simpa [bundleText, bundleJson, Json.memberText, Json.quote, Json.escape] using reads

/-- A unit is written with a name, instructions and edges only. -/
theorem bundle?_toJson (d : Description Instruction) : bundle? (d.toJson Instruction.toJson) = none := by
  simp [Description.toJson, bundle?, Json.knownMembers?]

/-- A unit as it is written in a layout. -/
def unitText (unit : Layout × Description Instruction) : String := unit.1.write (unit.2.toJson Instruction.toJson)

theorem readAs_unitText (room : Nat) (unit : Layout × Description Instruction) :
    Json.ReadAs (room + 4) (unitText unit).toList (unit.2.toJson Instruction.toJson) :=
  readAs_written (plain_description room unit.2) unit.1

theorem stores_written {unit : Layout × Description Instruction} (written : read path = .ok (unitText unit)) :
    Stores read path (unit.2.toJson Instruction.toJson) :=
  ⟨_, written, Json.read?_whole (readAs_unitText 123 unit)⟩

/-- The fixed nesting of a unit leaves room for it in a bundle as in a file of its own. -/
theorem loadAll_written {units : List (Layout × Description Instruction)} {bundle : String} {paths : List String}
    (bundled : read bundle = .ok (bundleText (units.map unitText)))
    (written : List.Forall₂ (fun path unit => read path = .ok (unitText unit)) paths units)
    {graphs : List (Graph Instruction)} :
    loadAll read [bundle] = .ok graphs ↔ loadAll read paths = .ok graphs := by
  have whole : Stores read bundle (bundleJson (units.map fun unit => unit.2.toJson Instruction.toJson)) :=
    ⟨_, bundled, Json.read?_whole (readAs_bundleText fun unit _ => readAs_unitText 121 unit)⟩
  refine loadAll_bundle whole ?_ ?_
  · rw [List.forall₂_map_right_iff]
    exact written.imp fun path unit => stores_written
  · exact List.forall_mem_map.mpr fun unit _ => bundle?_toJson unit.2

theorem holds_written {unit : Layout × Description Instruction} (addressable : unit.2.Addressable)
    (written : read path = .ok (unitText unit)) : Holds read path [unit.2.canonical] := by
  have back : unit? (unit.2.toJson Instruction.toJson) = some unit.2.canonical :=
    congrArg Except.toOption (Description.readBack_eq addressable)
  exact ⟨_, stores_written written, fits_description addressable, .single (bundle?_toJson unit.2) back⟩

/-- Loading over any disk. There are graphs exactly if every file holds units and all of them are valid, and then
those of all units in order; else the fault is that of the first file that fails. A bundle loads as its units do
one by one: whatever the texts, if no unit is a bundle itself, and always if the units are written ones. -/
theorem loadAll_all_or_nothing (read : String → Except ReadFault String) :
    (∀ paths graphs, loadAll read paths = .ok graphs ↔ ∃ files, List.Forall₂ (Holds read) paths files ∧
      List.Forall₂ (fun d g => d.toGraph = .ok g) files.flatten graphs) ∧
    (∀ paths, (∃ graphs, loadAll read paths = .ok graphs) ↔ ∀ path ∈ paths, Loadable read path) ∧
    (∀ paths fault, loadAll read paths = .error fault ↔ ∃ before path after, paths = before ++ path :: after ∧
      (∀ x ∈ before, Loadable read x) ∧ Fails read path fault) ∧
    (∀ js bundle paths, (∀ j ∈ js, bundle? j = none) → Stores read bundle (bundleJson js) →
      List.Forall₂ (Stores read) paths js →
      ∀ graphs, loadAll read [bundle] = .ok graphs ↔ loadAll read paths = .ok graphs) ∧
    ∀ (units : List (Layout × Description Instruction)) bundle paths,
      read bundle = .ok (bundleText (units.map unitText)) →
      List.Forall₂ (fun path unit => read path = .ok (unitText unit)) paths units →
      ∀ graphs, loadAll read [bundle] = .ok graphs ↔ loadAll read paths = .ok graphs := by
  refine ⟨fun paths graphs => ?_, fun _ => loadAll_succeeds, fun _ _ => loadAll_eq_error, ?_, ?_⟩
  · simp only [loadAll_eq_ok, mapM_eq_ok]
  · exact fun js bundle paths single bundled stored graphs => loadAll_bundle bundled stored single
  · exact fun units bundle paths bundled written graphs => loadAll_written bundled written

/-- A unit by position, which is read though it is not how units are written. -/
def unusual : Json := .arr [.str "k", .arr [], .arr []]

/-- Two written units, one by one and bundled; one with an edge to an instruction it does not have. -/
def shelf : String → Except ReadFault String
  | "f" => .ok (unitText (.compact, ⟨"f", [.ret (some .null)], [⟨.start, .instruction 0, .normal⟩]⟩))
  | "g" => .ok (unitText (.indented, ⟨"g", [.call none none "m" [.int (-1)]], []⟩))
  | "f and g" => .ok (bundleText ([(.compact, ⟨"f", [.ret (some .null)], [⟨.start, .instruction 0, .normal⟩]⟩),
      (.indented, ⟨"g", [.call none none "m" [.int (-1)]], []⟩)].map unitText))
  | "h" => .ok (unitText (.compact, ⟨"h", [], [⟨.start, .instruction 0, .normal⟩]⟩))
  | "k" => .ok unusual.compact
  | "only k" => .ok (bundleJson [unusual]).pretty
  | _ => .error .missing

theorem loadAll_all_or_nothing_shelf :
    (∃ graphs, loadAll shelf ["f", "g"] = .ok graphs ∧ loadAll shelf ["f and g"] = .ok graphs ∧
      graphs.map Graph.name = ["f", "g"]) ∧
    (∃ graphs, loadAll shelf ["k"] = .ok graphs ∧ loadAll shelf ["only k"] = .ok graphs) ∧
    loadAll shelf ["g", "h", "nowhere"] = .error (.invalid "h" "h" (.noInstruction 0 0 0)) := by
  obtain ⟨succeeds, _, fails, bundling, writing⟩ := loadAll_all_or_nothing shelf
  have plain (room : Nat) : Json.Plain (room + 2) unusual := .arr (by simp [Json.Plain.str, Json.Plain.arr])
  have atK : Stores shelf "k" unusual := ⟨_, rfl, Json.read?_whole (Json.readAs_compact (plain 125))⟩
  have bundled : Json.Plain room (bundleJson [unusual]) := .obj (by simpa using .arr (by simpa using plain 123))
  have f : Holds shelf "f" _ := holds_written (by decide) rfl
  have g : Holds shelf "g" _ := holds_written (by decide) rfl
  have h : Holds shelf "h" _ := holds_written (by decide) rfl
  have k : Holds shelf "k" [⟨"k", [], []⟩] := ⟨_, atK, rfl, .single rfl rfl⟩
  refine ⟨?_, ?_, ?_⟩
  · have loaded := (succeeds ["f", "g"] _).mpr ⟨_, .cons f (.cons g .nil), .cons rfl (.cons rfl .nil)⟩
    exact ⟨_, loaded, (writing _ "f and g" _ rfl (.cons rfl (.cons rfl .nil)) _).mpr loaded, rfl⟩
  · have loaded := (succeeds ["k"] _).mpr ⟨_, .cons k .nil, .cons rfl .nil⟩
    refine ⟨_, loaded, (bundling [unusual] "only k" ["k"] ?_ ?_ (.cons atK .nil) _).mpr loaded⟩
    · simp [unusual, bundle?]
    · exact ⟨_, rfl, Json.read?_whole (Json.readAs_prettyAt bundled 0)⟩
  · refine (fails _ _).mpr ⟨["g"], "h", ["nowhere"], rfl, ?_, @Fails.invalid _ _ [] [] _ _ h (by simp) rfl⟩
    exact List.forall_mem_singleton.mpr ⟨_, g, by simp [Description.Valid, Description.canonical]⟩

end UnitFile

end Dataflow
