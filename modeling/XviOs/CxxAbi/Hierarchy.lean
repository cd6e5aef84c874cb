import XviOs.CxxAbi.TypeMatch

namespace XviOs.CxxAbi

open Dwarf (Memory)

/-- A subobject of an object: the shared virtual base, or the whole object, that it is in, and the bases on the way
from there, none of which is virtual. -/
structure Subobject (Name : Type) where
  origin : Option Name
  path : List Nat
  deriving DecidableEq

variable {Name : Type}

def Subobject.whole : Subobject Name := ⟨none, []⟩

def Subobject.extend (s : Subobject Name) (i : Nat) : Subobject Name := ⟨s.origin, s.path ++ [i]⟩

/-- The subobject of a base. -/
def Subobject.base (s : Subobject Name) (info : BaseClassTypeInfo) (type : ClassTypeInfo Name) (i : Nat) :
    Subobject Name :=
  if info.isVirtual then ⟨some type.name, []⟩ else s.extend i

/-- A class in a hierarchy, with the subobject and the access on one path to it. -/
structure Node (Name : Type) where
  type : ClassTypeInfo Name
  sub : Subobject Name
  isPublic : Bool

/-- From a class to one of its bases. -/
inductive Inherits : Node Name → Node Name → Prop
  | single {name : Name} {base : ClassTypeInfo Name} {s : Subobject Name} {isPublic : Bool} :
      Inherits ⟨.siClassTypeInfo name base, s, isPublic⟩ ⟨base, s.extend 0, isPublic⟩
  | multiple {name : Name} {flags : BitVec 32} {bases : List (BaseClassTypeInfo × ClassTypeInfo Name)}
      {s : Subobject Name} {isPublic : Bool} {i : Nat} {info : BaseClassTypeInfo} {base : ClassTypeInfo Name}
      (hbase : bases[i]? = some (info, base)) :
      Inherits ⟨.vmiClassTypeInfo name flags bases, s, isPublic⟩ ⟨base, s.base info base i, isPublic && info.isPublic⟩

/-- Over any number of bases. -/
def Derives : Node Name → Node Name → Prop := Relation.ReflTransGen Inherits

def Node.whole (derived : ClassTypeInfo Name) : Node Name := ⟨derived, .whole, true⟩

/-- The type information that a compiler makes: a name stands for one class, and where a class says that it has no
repeated bases, no class is more than one subobject of it. -/
structure WellFormed (derived : ClassTypeInfo Name) : Prop where
  coherent : ∀ u v, Derives (.whole derived) u → Derives (.whole derived) v → u.type.name = v.type.name →
    u.type = v.type
  repeated : ∀ name flags bases s isPublic, flags &&& nonDiamondRepeatMask = 0 →
    Derives (.whole derived) ⟨.vmiClassTypeInfo name flags bases, s, isPublic⟩ →
      ∀ v w, Derives ⟨.vmiClassTypeInfo name flags bases, s, isPublic⟩ v →
        Derives ⟨.vmiClassTypeInfo name flags bases, s, isPublic⟩ w → v.type.name = w.type.name → v.sub = w.sub

/-- Where the subobjects of an object are. -/
structure Layout (m : Memory) (derived : ClassTypeInfo Name) (object : BitVec 64)
    (address : Subobject Name → BitVec 64) : Prop where
  whole : address .whole = object
  ne_null : ∀ u, Derives (.whole derived) u → address u.sub ≠ 0
  single : ∀ name base s isPublic, Derives (.whole derived) ⟨.siClassTypeInfo name base, s, isPublic⟩ →
    address (s.extend 0) = address s
  base : ∀ name flags bases s isPublic i info base,
    Derives (.whole derived) ⟨.vmiClassTypeInfo name flags bases, s, isPublic⟩ → bases[i]? = some (info, base) →
      address (s.base info base i) =
        address s + if info.isVirtual then virtualBaseOffset m (address s) info.getOffset else info.getOffset
  distinct : ∀ u v, Derives (.whole derived) u → Derives (.whole derived) v → u.type.name = v.type.name →
    address u.sub = address v.sub → u.sub = v.sub

/-- Types by induction, with a hypothesis for each of the bases. -/
theorem ClassTypeInfo.induct {P : ClassTypeInfo Name → Prop} (hclass : ∀ name, P (.classTypeInfo name))
    (hsi : ∀ name base, P base → P (.siClassTypeInfo name base))
    (hvmi : ∀ name flags bases, (∀ e ∈ bases, P e.2) → P (.vmiClassTypeInfo name flags bases))
    (t : ClassTypeInfo Name) : P t :=
  @ClassTypeInfo.rec Name P (fun bases => ∀ e ∈ bases, P e.2) (fun e => P e.2) hclass hsi hvmi
    (fun _ he => absurd he List.not_mem_nil)
    (fun _ _ hhead htail _ he => (List.mem_cons.mp he).elim (fun heq => heq ▸ hhead) (htail _))
    (fun _ _ h => h) t

mutual

/-- The classes of a hierarchy in the order of a search that goes down first. -/
def nodes : ClassTypeInfo Name → Subobject Name → Bool → List (Node Name)
  | .classTypeInfo name, s, isPublic => [⟨.classTypeInfo name, s, isPublic⟩]
  | .siClassTypeInfo name base, s, isPublic =>
    ⟨.siClassTypeInfo name base, s, isPublic⟩ :: nodes base (s.extend 0) isPublic
  | .vmiClassTypeInfo name flags bases, s, isPublic =>
    ⟨.vmiClassTypeInfo name flags bases, s, isPublic⟩ :: nodesOfBases bases 0 s isPublic

def nodesOfBases : List (BaseClassTypeInfo × ClassTypeInfo Name) → Nat → Subobject Name → Bool → List (Node Name)
  | [], _, _, _ => []
  | (info, base) :: bases, i, s, isPublic =>
    nodes base (s.base info base i) (isPublic && info.isPublic) ++ nodesOfBases bases (i + 1) s isPublic

end

theorem derives_iff {u v : Node Name} : Derives u v ↔ v = u ∨ ∃ w, Inherits u w ∧ Derives w v := by
  rw [Derives, Relation.ReflTransGen.cases_head_iff, eq_comm]

theorem mem_nodesOfBases {bases : List (BaseClassTypeInfo × ClassTypeInfo Name)} {k : Nat} {s : Subobject Name}
    {isPublic : Bool} {u : Node Name} :
    u ∈ nodesOfBases bases k s isPublic ↔ ∃ i info base, bases[i]? = some (info, base) ∧
      u ∈ nodes base (s.base info base (k + i)) (isPublic && info.isPublic) := by
  induction bases generalizing k with
  | nil => simp [nodesOfBases]
  | cons e bases ih =>
    obtain ⟨info, base⟩ := e
    rw [nodesOfBases, List.mem_append, ih]
    constructor
    · rintro (h | ⟨i, info', base', hi, h⟩)
      · exact ⟨0, info, base, rfl, h⟩
      · exact ⟨i + 1, info', base', hi, by rwa [← Nat.add_assoc, Nat.add_right_comm]⟩
    · rintro ⟨i, info', base', hi, h⟩
      cases i with
      | zero =>
        cases hi
        exact Or.inl h
      | succ i => exact Or.inr ⟨i, info', base', hi, by rwa [Nat.add_assoc, Nat.add_comm 1 i]⟩

/-- The search finds the classes that are derived from, on all paths to them. -/
theorem mem_nodes_iff {t : ClassTypeInfo Name} {s : Subobject Name} {isPublic : Bool} {u : Node Name} :
    u ∈ nodes t s isPublic ↔ Derives ⟨t, s, isPublic⟩ u := by
  induction t using ClassTypeInfo.induct generalizing s isPublic with
  | hclass name =>
    rw [nodes, List.mem_singleton, derives_iff]
    constructor
    · exact Or.inl
    · rintro (h | ⟨v, hv, -⟩)
      · exact h
      · cases hv
  | hsi name base ih =>
    rw [nodes, List.mem_cons, ih, derives_iff (u := ⟨.siClassTypeInfo name base, s, isPublic⟩)]
    apply or_congr_right
    constructor
    · exact fun h => ⟨_, .single, h⟩
    · rintro ⟨v, hv, h⟩
      cases hv
      exact h
  | hvmi name flags bases ih =>
    rw [nodes, List.mem_cons, mem_nodesOfBases, derives_iff]
    apply or_congr_right
    constructor
    · rintro ⟨i, info, base, hi, h⟩
      rw [Nat.zero_add] at h
      exact ⟨_, .multiple hi, (ih _ (List.mem_of_getElem? hi)).mp h⟩
    · rintro ⟨v, hv, h⟩
      cases hv with
      | @multiple _ _ _ _ _ i info base hi =>
        refine ⟨i, info, base, hi, ?_⟩
        rw [Nat.zero_add]
        exact (ih _ (List.mem_of_getElem? hi)).mpr h

theorem Inherits.size_lt {u v : Node Name} (h : Inherits u v) : sizeOf v.type < sizeOf u.type := by
  cases h with
  | single => simp
  | multiple hbase =>
    have hmem := List.sizeOf_lt_of_mem (List.mem_of_getElem? hbase)
    simp only [Prod.mk.sizeOf_spec] at hmem
    simp only [ClassTypeInfo.vmiClassTypeInfo.sizeOf_spec]
    omega

theorem size_lt_of_transGen {u v : Node Name} (h : Relation.TransGen Inherits u v) :
    sizeOf v.type < sizeOf u.type := by
  induction h with
  | single h => exact h.size_lt
  | tail _ h ih => exact h.size_lt.trans ih

/-- A class is not a base of itself. -/
theorem WellFormed.ne_name {derived : ClassTypeInfo Name} (h : WellFormed derived) {u v : Node Name}
    (hu : Derives (.whole derived) u) (hv : Relation.TransGen Inherits u v) : v.type.name ≠ u.type.name := by
  intro heq
  have htype := h.coherent v u (hu.trans hv.to_reflTransGen) hu heq
  have hlt := size_lt_of_transGen hv
  rw [htype] at hlt
  exact lt_irrefl _ hlt

/-- What is in the whole object without a virtual base on the way is found by the bases on the way. -/
theorem Derives.prefix_path {u v : Node Name} (h : Derives u v) (hv : v.sub.origin = none) :
    u.sub.origin = none ∧ u.sub.path <+: v.sub.path := by
  induction h with
  | refl => exact ⟨hv, List.prefix_refl _⟩
  | tail _ hstep ih =>
    cases hstep with
    | single =>
      obtain ⟨horigin, hpath⟩ := ih hv
      exact ⟨horigin, hpath.trans (List.prefix_append _ _)⟩
    | @multiple name flags bases s isPublic i info base hbase =>
      by_cases hvirtual : info.isVirtual = true
      · simp [Subobject.base, hvirtual] at hv
      · simp only [Subobject.base, if_neg hvirtual] at hv ⊢
        obtain ⟨horigin, hpath⟩ := ih hv
        exact ⟨horigin, hpath.trans (List.prefix_append _ _)⟩

theorem prefix_path_of_nodes {t : ClassTypeInfo Name} {s : Subobject Name} {isPublic : Bool} {v : Node Name}
    (h : v ∈ nodes t s isPublic) (hv : v.sub.origin = none) : s.origin = none ∧ s.path <+: v.sub.path :=
  (mem_nodes_iff.mp h).prefix_path hv

/-- Without a virtual base on the way, the paths to the classes lead to different subobjects. -/
def Apart (u v : Node Name) : Prop := u.sub = v.sub → u.sub.origin ≠ none

theorem prefix_path_of_base {s : Subobject Name} {info : BaseClassTypeInfo} {base : ClassTypeInfo Name} {i : Nat}
    {isPublic : Bool} {v : Node Name} (h : v ∈ nodes base (s.base info base i) isPublic) (hv : v.sub.origin = none) :
    s.path ++ [i] <+: v.sub.path := by
  obtain ⟨horigin, hpath⟩ := prefix_path_of_nodes h hv
  by_cases hvirtual : info.isVirtual = true
  · simp [Subobject.base, hvirtual] at horigin
  · simpa [Subobject.base, hvirtual, Subobject.extend] using hpath

theorem not_prefix_append {path : List Nat} {i : Nat} : ¬ path ++ [i] <+: path := by
  intro h
  have hlen := h.length_le
  simp at hlen

theorem eq_of_prefix_append {path path' : List Nat} {i j : Nat} (hi : path ++ [i] <+: path')
    (hj : path ++ [j] <+: path') : i = j := by
  have heq := (List.prefix_of_prefix_length_le hi hj (by simp)).eq_of_length (by simp)
  simpa using heq

theorem nodesOfBases_apart {bases : List (BaseClassTypeInfo × ClassTypeInfo Name)} {k : Nat} {s : Subobject Name}
    {isPublic : Bool} (h : ∀ e ∈ bases, ∀ s isPublic, (nodes e.2 s isPublic).Pairwise Apart) :
    (nodesOfBases bases k s isPublic).Pairwise Apart := by
  induction bases generalizing k with
  | nil => exact List.Pairwise.nil
  | cons e bases ih =>
    obtain ⟨info, base⟩ := e
    rw [nodesOfBases, List.pairwise_append]
    refine ⟨h _ (List.mem_cons_self ..) _ _, ih fun e he => h e (List.mem_cons_of_mem _ he), ?_⟩
    intro u hu v hv heq horigin
    obtain ⟨j, info', base', -, hv⟩ := mem_nodesOfBases.mp hv
    have hi := prefix_path_of_base hu horigin
    rw [heq] at hi horigin
    have hj := eq_of_prefix_append hi (prefix_path_of_base hv horigin)
    omega

theorem nodes_apart (t : ClassTypeInfo Name) (s : Subobject Name) (isPublic : Bool) :
    (nodes t s isPublic).Pairwise Apart := by
  induction t using ClassTypeInfo.induct generalizing s isPublic with
  | hclass name => exact List.pairwise_singleton _ _
  | hsi name base ih =>
    refine List.pairwise_cons.mpr ⟨?_, ih _ _⟩
    intro v hv heq horigin
    rw [heq] at horigin
    have hpath := (prefix_path_of_nodes hv horigin).2
    rw [← heq] at hpath
    exact not_prefix_append hpath
  | hvmi name flags bases ih =>
    refine List.pairwise_cons.mpr ⟨?_, nodesOfBases_apart fun e he => ih e he⟩
    intro v hv heq horigin
    obtain ⟨i, info, base, -, hv⟩ := mem_nodesOfBases.mp hv
    rw [heq] at horigin
    have hpath := prefix_path_of_base hv horigin
    rw [← heq] at hpath
    exact not_prefix_append hpath

end XviOs.CxxAbi
