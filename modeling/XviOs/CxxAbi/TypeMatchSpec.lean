import XviOs.CxxAbi.TypeMatchWalk

namespace XviOs.CxxAbi

open Dwarf (Memory)

section Spec

variable {Name : Type} [DecidableEq Name] {m : Memory} {derived : ClassTypeInfo Name} {object : BitVec 64}
  {address : Subobject Name → BitVec 64} {base : Name}

/-- A clause for a class catches a subobject: the class is that of the object, or it is a base that is one subobject
only, to which a path of public bases leads. -/
def IsCaught (derived : ClassTypeInfo Name) (base : Name) (s : Subobject Name) : Prop :=
  (derived.name = base ∧ s = .whole) ∨
    ((∀ u, Derives (.whole derived) u → u.type.name = base → u.sub = s) ∧
      ∃ u, Derives (.whole derived) u ∧ u.type.name = base ∧ u.sub = s ∧ u.isPublic = true)

/-- The match succeeds for the classes that catch, and leads to the subobject. -/
structure MatchesRight (m : Memory) (derived : ClassTypeInfo Name) (base : Name) (object : BitVec 64)
    (address : Subobject Name → BitVec 64) : Prop where
  succeeds : (typesMatchForCatch m derived base object).1 = .succeeded ↔ ∃ s, IsCaught derived base s
  adjusts : ∀ s, IsCaught derived base s → object + (typesMatchForCatch m derived base object).2 = address s

/-- The first path to the class, with a class before its bases and these in order, is public. -/
def FirstPathPublic (derived : ClassTypeInfo Name) (base : Name) : Prop :=
  ∃ u, (hits base derived .whole true).head? = some u ∧ u.isPublic = true

theorem findPathToBase_outcome (base : Name) (hwf : WellFormed derived) (hlayout : Layout m derived object address) :
    (AllSame (hits base derived .whole true) ∧
        Stands address (findPathToBase m base derived object) (hits base derived .whole true).head?) ∨
      (¬ AllSame (hits base derived .whole true) ∧ findPathToBase m base derived object = none) := by
  have hroot : Describes address (TiPathInfo.enter m { objectPtr := object } (none : Option (ClassTypeInfo Name × Nat)))
      (.whole derived) :=
    ⟨hlayout.whole.symm, rfl, rfl⟩
  obtain ⟨result, candidate, hwalk, houtcome, -⟩ :=
    walks hwf hlayout derived .whole true { objectPtr := object } none none none .refl hroot .none (by simp)
      ((nodes_apart derived .whole true).filter _)
  rw [findPathToBase, hwalk]
  cases houtcome with
  | unambiguous hsame hresult hstands => exact Or.inl ⟨hsame, hstands⟩
  | ambiguous hsame => exact Or.inr ⟨hsame, rfl⟩

theorem isUnambiguousPublicBase_eq_some_iff (hwf : WellFormed derived) (hlayout : Layout m derived object address)
    {adjust : BitVec 64} :
    isUnambiguousPublicBase m base derived object = some adjust ↔
      AllSame (hits base derived .whole true) ∧ ∃ u, (hits base derived .whole true).head? = some u ∧
        u.isPublic = true ∧ adjust = address u.sub - object := by
  unfold isUnambiguousPublicBase
  obtain ⟨hsame, hstands⟩ | ⟨hsame, hnone⟩ := findPathToBase_outcome base hwf hlayout
  · generalize findPathToBase m base derived object = path at hstands ⊢
    generalize hits base derived .whole true = l at *
    cases l with
    | nil =>
      cases hstands
      simp
    | cons u l =>
      cases hstands with
      | @some path _ h =>
        simp only [hsame, true_and, List.head?_cons, Option.some.injEq, exists_eq_left']
        split
        case isTrue hpublic =>
          rw [h.isPublic] at hpublic
          rw [Option.some.injEq, h.objectPtr]
          exact ⟨fun heq => ⟨hpublic, heq.symm⟩, fun heq => heq.2.symm⟩
        case isFalse hprivate =>
          rw [h.isPublic] at hprivate
          exact iff_of_false (by simp) fun heq => hprivate heq.1
  · rw [hnone]
    exact iff_of_false (by simp) fun heq => hsame heq.1

/-- A base that catches is found on all paths to it. -/
theorem allSame_hits (hname : derived.name ≠ base) {s : Subobject Name} (h : IsCaught derived base s) :
    AllSame (hits base derived .whole true) ∧ ∀ u ∈ hits base derived .whole true, u.sub = s := by
  obtain ⟨heq, -⟩ | ⟨hone, -⟩ := h
  · exact absurd heq hname
  · have hall : ∀ u ∈ hits base derived .whole true, u.sub = s := by
      intro u hu
      obtain ⟨hu, huname⟩ := mem_hits.mp hu
      exact hone u hu huname
    refine ⟨fun u hu v hv => ?_, hall⟩
    rw [hall u hu, hall v hv]

omit [DecidableEq Name] in
/-- The class of the object itself is its whole. -/
theorem isCaught_whole (hname : derived.name = base) {s : Subobject Name} (h : IsCaught derived base s) : s = .whole := by
  obtain ⟨-, rfl⟩ | ⟨hone, -⟩ := h
  · rfl
  · exact (hone (.whole derived) .refl hname).symm

/-- A catch finds the right subobject exactly if the first path to the class is public whenever one is. -/
theorem typesMatchForCatch_right_iff (hwf : WellFormed derived) (hlayout : Layout m derived object address) :
    MatchesRight m derived base object address ↔
      ((∃ s, IsCaught derived base s) → FirstPathPublic derived base) := by
  by_cases hname : derived.name = base
  · have hmatch : typesMatchForCatch m derived base object = (.succeeded, 0) := if_pos hname
    have hself : IsCaught derived base .whole := Or.inl ⟨hname, rfl⟩
    constructor
    · intro _ _
      refine ⟨.whole derived, ?_, rfl⟩
      have hhits := hits_of_name hwf (u := .whole derived) .refl hname
      rw [show hits base derived .whole true = [.whole derived] from hhits]
      rfl
    · intro _
      refine ⟨?_, fun s hs => ?_⟩
      · rw [hmatch]
        exact iff_of_true rfl ⟨_, hself⟩
      · rw [hmatch, isCaught_whole hname hs, hlayout.whole]
        exact BitVec.add_zero object
  · have hcaught : ∀ {adjust}, isUnambiguousPublicBase m base derived object = some adjust →
        ∃ u, IsCaught derived base u.sub ∧ (hits base derived .whole true).head? = some u ∧ u.isPublic = true := by
      intro adjust hsome
      obtain ⟨hsame, u, hhead, hpublic, -⟩ := (isUnambiguousPublicBase_eq_some_iff hwf hlayout).mp hsome
      have hu := List.mem_of_mem_head? hhead
      refine ⟨u, Or.inr ⟨?_, u, (mem_hits.mp hu).1, (mem_hits.mp hu).2, rfl, hpublic⟩, hhead, hpublic⟩
      exact fun v hv hvname => hsame v (mem_hits.mpr ⟨hv, hvname⟩) u hu
    constructor
    · rintro h hcatches
      have hsucceeds := h.succeeds.mpr hcatches
      simp only [typesMatchForCatch, if_neg hname] at hsucceeds
      cases hpath : isUnambiguousPublicBase m base derived object with
      | none =>
        rw [hpath] at hsucceeds
        cases hsucceeds
      | some adjust =>
        obtain ⟨u, -, hhead, hpublic⟩ := hcaught hpath
        exact ⟨u, hhead, hpublic⟩
    · intro h
      have hfound : ∀ s, IsCaught derived base s →
          typesMatchForCatch m derived base object = (.succeeded, address s - object) := by
        intro s hs
        obtain ⟨u, hhead, hpublic⟩ := h ⟨s, hs⟩
        obtain ⟨hsame, hall⟩ := allSame_hits hname hs
        have hpath := (isUnambiguousPublicBase_eq_some_iff hwf hlayout).mpr ⟨hsame, u, hhead, hpublic, rfl⟩
        rw [hall u (List.mem_of_mem_head? hhead)] at hpath
        simp only [typesMatchForCatch, if_neg hname, hpath]
      refine ⟨⟨?_, ?_⟩, ?_⟩
      · intro hsucceeds
        simp only [typesMatchForCatch, if_neg hname] at hsucceeds
        cases hpath : isUnambiguousPublicBase m base derived object with
        | none =>
          rw [hpath] at hsucceeds
          cases hsucceeds
        | some adjust =>
          obtain ⟨u, hcatches, -, -⟩ := hcaught hpath
          exact ⟨u.sub, hcatches⟩
      · rintro ⟨s, hs⟩
        rw [hfound s hs]
      · intro s hs
        rw [hfound s hs]
        rw [BitVec.add_comm, BitVec.sub_add_cancel]

end Spec

/-- A class with two bases that share a virtual base. The first of them inherits it with the flags given. -/
def diamond (offsetFlags : BitVec 64) : ClassTypeInfo Nat :=
  .vmiClassTypeInfo 0 0x02
    [(⟨0x002⟩, .vmiClassTypeInfo 1 0 [(⟨offsetFlags⟩, .classTypeInfo 3)]),
      (⟨0x802⟩, .vmiClassTypeInfo 2 0 [(⟨0xffffffffffffe803⟩, .classTypeInfo 3)])]

/-- An object of the class, and the two virtual tables. -/
def diamondMemory : Memory := fun x =>
  if x = 0x1001 then 0x20 else if x = 0x1009 then 0x30 else if x = 0x1fe8 then 0x10 else if x = 0x2fe8 then 0x08 else 0

def diamondAddress (s : Subobject Nat) : BitVec 64 :=
  if s.origin.isSome then 0x1010 else if s.path = [1] then 0x1008 else 0x1000

def publicVirtual : BitVec 64 := 0xffffffffffffe803
def privateVirtual : BitVec 64 := 0xffffffffffffe801

section Diamond

variable {offsetFlags : BitVec 64} (hflags : offsetFlags = publicVirtual ∨ offsetFlags = privateVirtual)

include hflags

theorem diamond_nodes : ∃ isPublic, nodes (diamond offsetFlags) .whole true =
    [.whole (diamond offsetFlags),
      ⟨.vmiClassTypeInfo 1 0 [(⟨offsetFlags⟩, .classTypeInfo 3)], ⟨none, [0]⟩, true⟩,
      ⟨.classTypeInfo 3, ⟨some 3, []⟩, isPublic⟩,
      ⟨.vmiClassTypeInfo 2 0 [(⟨publicVirtual⟩, .classTypeInfo 3)], ⟨none, [1]⟩, true⟩,
      ⟨.classTypeInfo 3, ⟨some 3, []⟩, true⟩] := by
  obtain rfl | rfl := hflags
  · exact ⟨true, rfl⟩
  · exact ⟨false, rfl⟩

theorem diamond_cases {u : Node Nat} (h : Derives (.whole (diamond offsetFlags)) u) :
    u = .whole (diamond offsetFlags) ∨
      u = ⟨.vmiClassTypeInfo 1 0 [(⟨offsetFlags⟩, .classTypeInfo 3)], ⟨none, [0]⟩, true⟩ ∨
      u = ⟨.vmiClassTypeInfo 2 0 [(⟨publicVirtual⟩, .classTypeInfo 3)], ⟨none, [1]⟩, true⟩ ∨
      ∃ isPublic, u = ⟨.classTypeInfo 3, ⟨some 3, []⟩, isPublic⟩ := by
  obtain ⟨isPublic, hnodes⟩ := diamond_nodes hflags
  have hmem := mem_nodes_iff.mpr h
  rw [hnodes] at hmem
  simp only [List.mem_cons, List.not_mem_nil, or_false] at hmem
  obtain rfl | rfl | rfl | rfl | rfl := hmem
  · exact Or.inl rfl
  · exact Or.inr (Or.inl rfl)
  · exact Or.inr (Or.inr (Or.inr ⟨_, rfl⟩))
  · exact Or.inr (Or.inr (Or.inl rfl))
  · exact Or.inr (Or.inr (Or.inr ⟨_, rfl⟩))

/-- No class is two subobjects of another one. -/
theorem diamond_sub {u v : Node Nat} (hu : Derives (.whole (diamond offsetFlags)) u)
    (hv : Derives (.whole (diamond offsetFlags)) v) (hname : u.type.name = v.type.name) :
    u.type = v.type ∧ u.sub = v.sub := by
  obtain rfl | rfl | rfl | ⟨p, rfl⟩ := diamond_cases hflags hu <;>
    obtain rfl | rfl | rfl | ⟨q, rfl⟩ := diamond_cases hflags hv <;>
    first
    | exact ⟨rfl, rfl⟩
    | exact absurd hname (by simp [ClassTypeInfo.name, Node.whole, diamond])

theorem diamond_wellFormed : WellFormed (diamond offsetFlags) := by
  refine ⟨fun u v hu hv hname => (diamond_sub hflags hu hv hname).1, ?_⟩
  intro _ _ _ _ _ _ hreach v w hv hw hname
  exact (diamond_sub hflags (hreach.trans hv) (hreach.trans hw) hname).2

theorem diamond_layout : Layout diamondMemory (diamond offsetFlags) 0x1000 diamondAddress := by
  refine ⟨rfl, ?_, ?_, ?_, fun u v hu hv hname _ => (diamond_sub hflags hu hv hname).2⟩
  · intro u _
    unfold diamondAddress
    split_ifs <;> decide
  · intro name base s isPublic hreach
    obtain h | h | h | ⟨p, h⟩ := diamond_cases hflags hreach <;> cases h
  · intro name flags bases s isPublic i info base hreach hbase
    obtain h | h | h | ⟨p, h⟩ := diamond_cases hflags hreach
    · cases h
      match i with
      | 0 | 1 =>
        cases hbase
        rfl
      | i + 2 => simp at hbase
    · cases h
      match i with
      | 0 =>
        cases hbase
        obtain rfl | rfl := hflags <;> rfl
      | i + 1 => simp at hbase
    · cases h
      match i with
      | 0 =>
        cases hbase
        rfl
      | i + 1 => simp at hbase
    · cases h

end Diamond

theorem diamond_right : MatchesRight diamondMemory (diamond publicVirtual) 3 0x1000 diamondAddress :=
  (typesMatchForCatch_right_iff (diamond_wellFormed (Or.inl rfl)) (diamond_layout (Or.inl rfl))).mpr
    fun _ => ⟨_, rfl, rfl⟩

/-- A base that is private on the first path and public on the second is not caught. -/
theorem diamond_missed : WellFormed (diamond privateVirtual) ∧
    Layout diamondMemory (diamond privateVirtual) 0x1000 diamondAddress ∧
      ¬ MatchesRight diamondMemory (diamond privateVirtual) 3 0x1000 diamondAddress := by
  refine ⟨diamond_wellFormed (Or.inr rfl), diamond_layout (Or.inr rfl), fun h => ?_⟩
  have hcatches : IsCaught (diamond privateVirtual) 3 ⟨some 3, []⟩ := by
    refine Or.inr ⟨?_, ⟨.classTypeInfo 3, ⟨some 3, []⟩, true⟩, ?_, rfl, rfl, rfl⟩
    · intro u hu hname
      obtain rfl | rfl | rfl | ⟨p, rfl⟩ := diamond_cases (Or.inr rfl) hu
      · cases hname
      · cases hname
      · cases hname
      · rfl
    · obtain ⟨p, hnodes⟩ := diamond_nodes (Or.inr rfl)
      rw [Node.whole, ← mem_nodes_iff, hnodes]
      simp
  have hsucceeds := h.succeeds.mpr ⟨_, hcatches⟩
  have hfails : (typesMatchForCatch diamondMemory (diamond privateVirtual) 3 0x1000).1 = .failed := by rfl
  rw [hfails] at hsucceeds
  cases hsucceeds

end XviOs.CxxAbi
