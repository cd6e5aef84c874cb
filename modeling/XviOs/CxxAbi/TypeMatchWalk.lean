import XviOs.CxxAbi.Hierarchy

namespace XviOs.CxxAbi

open Dwarf (Memory)

variable {Name : Type} [DecidableEq Name]

/-- The classes of that name, in the order of the search. -/
def hits (base : Name) (t : ClassTypeInfo Name) (s : Subobject Name) (isPublic : Bool) : List (Node Name) :=
  (nodes t s isPublic).filter (·.type.name = base)

def hitsOfBases (base : Name) (bases : List (BaseClassTypeInfo × ClassTypeInfo Name)) (k : Nat) (s : Subobject Name)
    (isPublic : Bool) : List (Node Name) :=
  (nodesOfBases bases k s isPublic).filter (·.type.name = base)

/-- All are one subobject. -/
def AllSame (l : List (Node Name)) : Prop := ∀ u ∈ l, ∀ v ∈ l, u.sub = v.sub

omit [DecidableEq Name] in
theorem allSame_append_iff {l l' : List (Node Name)} (h : AllSame l) :
    AllSame (l ++ l') ↔ AllSame (l.head?.toList ++ l') := by
  cases l with
  | nil => rfl
  | cons x l =>
    constructor
    · intro hall u hu v hv
      simp only [List.head?_cons, Option.toList_some, List.singleton_append] at hu hv
      exact hall u (by simp only [List.cons_append, List.mem_cons, List.mem_append] at *; tauto) v
        (by simp only [List.cons_append, List.mem_cons, List.mem_append] at *; tauto)
    · intro hall
      have hx : ∀ u ∈ x :: l ++ l', u.sub = x.sub := by
        intro u hu
        obtain hu | hu := List.mem_append.mp hu
        · exact h u hu x (List.mem_cons_self ..)
        · exact hall u (by simp [hu]) x (by simp)
      intro u hu v hv
      rw [hx u hu, hx v hv]

theorem head?_toList_append {A : Type} (l l' : List A) : (l.head?.toList ++ l').head? = (l ++ l').head? := by
  cases l <;> rfl

theorem head?_toList_sublist {A : Type} (l : List A) : l.head?.toList.Sublist l := by
  cases l <;> simp

omit [DecidableEq Name] in
theorem AllSame.of_append {l l' : List (Node Name)} (h : AllSame (l ++ l')) : AllSame l :=
  fun u hu v hv => h u (List.mem_append_left _ hu) v (List.mem_append_left _ hv)

/-- The state of the walk at a class. -/
structure Describes (address : Subobject Name → BitVec 64) (info : TiPathInfo) (u : Node Name) : Prop where
  objectPtr : info.objectPtr = address u.sub
  isPublic : info.isPublic = u.isPublic
  isVirtual : info.isVirtual = u.sub.origin.isSome

/-- The candidate is the first class that was found. -/
inductive Stands (address : Subobject Name → BitVec 64) : Option TiPathInfo → Option (Node Name) → Prop
  | none : Stands address none none
  | some {info : TiPathInfo} {u : Node Name} (h : Describes address info u) : Stands address (some info) (some u)

/-- What a walk over classes leaves, after a first one may have been found. -/
inductive Outcome (address : Subobject Name → BitVec 64) (found : Option (Node Name)) (l : List (Node Name)) :
    TypeInfoWalkResult → Option TiPathInfo → Prop
  | unambiguous {result : TypeInfoWalkResult} {candidate : Option TiPathInfo} (hsame : AllSame (found.toList ++ l))
      (hresult : result ≠ .done) (hstands : Stands address candidate (found.toList ++ l).head?) :
      Outcome address found l result candidate
  | ambiguous (hsame : ¬ AllSame (found.toList ++ l)) : Outcome address found l .done none

section Walk

variable {m : Memory} {derived : ClassTypeInfo Name} {object : BitVec 64} {address : Subobject Name → BitVec 64}
  {base : Name}

omit [DecidableEq Name] in
theorem Describes.adjust (hlayout : Layout m derived object address) {name : Name} {flags : BitVec 32}
    {bases : List (BaseClassTypeInfo × ClassTypeInfo Name)} {s : Subobject Name} {isPublic : Bool} {info : TiPathInfo}
    {i : Nat} {baseInfo : BaseClassTypeInfo} {baseType : ClassTypeInfo Name}
    (hreach : Derives (.whole derived) ⟨.vmiClassTypeInfo name flags bases, s, isPublic⟩)
    (h : Describes address info ⟨.vmiClassTypeInfo name flags bases, s, isPublic⟩)
    (hbase : bases[i]? = some (baseInfo, baseType)) :
    Describes address (info.adjust m baseInfo) ⟨baseType, s.base baseInfo baseType i, isPublic && baseInfo.isPublic⟩ := by
  have hne := hlayout.ne_null _ hreach
  have haddress := hlayout.base _ _ _ _ _ _ _ _ hreach hbase
  have hptr : info.objectPtr = address s := h.objectPtr
  constructor
  · simp only [TiPathInfo.adjust, hptr, if_neg hne, haddress]
    split <;> rfl
  · simp only [TiPathInfo.adjust, h.isPublic]
  · simp only [TiPathInfo.adjust, h.isVirtual, Subobject.base]
    cases baseInfo.isVirtual <;> simp [Subobject.extend]

/-- The callback at a class of the name. -/
theorem visit_hit (hlayout : Layout m derived object address) {info : TiPathInfo} {u : Node Name}
    {parent : Option (ClassTypeInfo Name × Nat)} {candidate : Option TiPathInfo} {found : Option (Node Name)}
    (hu : Derives (.whole derived) u) (hname : u.type.name = base) (hinfo : Describes address (info.enter m parent) u)
    (hcandidate : Stands address candidate found)
    (hfound : ∀ v, found = some v → Derives (.whole derived) v ∧ v.type.name = base)
    (hapart : (found.toList ++ [u]).Pairwise Apart) :
    ∃ result candidate', visit m base info u.type parent candidate = (result, info.enter m parent, candidate') ∧
      Outcome address found [u] result candidate' ∧ result ≠ .recurse ∧
        (result = .skipSiblings → (info.enter m parent).noRepeatedBases = true) := by
  have hstop : ∀ b : Bool, (if b then TypeInfoWalkResult.skipSiblings else .noRecurse) ≠ .done ∧
      (if b then TypeInfoWalkResult.skipSiblings else .noRecurse) ≠ .recurse ∧
        ((if b then TypeInfoWalkResult.skipSiblings else .noRecurse) = .skipSiblings → b = true) := by
    decide
  obtain ⟨hdone, hrecurse, hskip⟩ := hstop (info.enter m parent).noRepeatedBases
  simp only [visit, if_pos hname]
  cases hcandidate with
  | none =>
    refine ⟨_, _, rfl, .unambiguous ?_ hdone (.some hinfo), hrecurse, hskip⟩
    intro v hv w hw
    rw [List.mem_singleton.mp hv, List.mem_singleton.mp hw]
  | @some old v hold =>
    obtain ⟨hv, hvname⟩ := hfound v rfl
    have hsame_iff : AllSame ((some v).toList ++ [u]) ↔ v.sub = u.sub := by
      constructor
      · exact fun h => h v (by simp) u (by simp)
      · intro h w hw x hx
        simp only [Option.toList_some, List.singleton_append, List.mem_cons, List.not_mem_nil, or_false] at hw hx
        obtain rfl | rfl := hw <;> obtain rfl | rfl := hx <;> simp [h]
    by_cases hsame : v.sub = u.sub
    · have horigin : v.sub.origin.isSome = true := by
        have hne := (List.pairwise_cons.mp hapart).1 u (by simp) hsame
        simpa [Option.isSome_iff_ne_none] using hne
      have hkeep : ¬ ((!(info.enter m parent).isVirtual || !old.isVirtual ||
          decide ((info.enter m parent).objectPtr ≠ old.objectPtr)) = true) := by
        have horigin' : u.sub.origin.isSome = true := hsame ▸ horigin
        simp [hinfo.isVirtual, hold.isVirtual, hinfo.objectPtr, hold.objectPtr, hsame, horigin']
      refine ⟨_, _, if_neg hkeep, .unambiguous (hsame_iff.mpr hsame) hdone (.some hold), hrecurse, hskip⟩
    · have hdrop : (!(info.enter m parent).isVirtual || !old.isVirtual ||
          decide ((info.enter m parent).objectPtr ≠ old.objectPtr)) = true := by
        have hne : address u.sub ≠ address v.sub := fun heq =>
          hsame (hlayout.distinct u v hu hv (hname.trans hvname.symm) heq).symm
        simp [hinfo.objectPtr, hold.objectPtr, hne]
      exact ⟨_, _, if_pos hdrop, .ambiguous fun h => hsame (hsame_iff.mp h), by decide, fun h => by cases h⟩

/-- Below a class of the name there is none. -/
theorem hits_of_name (hwf : WellFormed derived) {u : Node Name} (hu : Derives (.whole derived) u)
    (hname : u.type.name = base) : hits base u.type u.sub u.isPublic = [u] := by
  obtain ⟨t, s, isPublic⟩ := u
  have hbelow : ∀ v l, nodes t s isPublic = v :: l → (∀ w ∈ l, Relation.TransGen Inherits ⟨t, s, isPublic⟩ w) →
      v = ⟨t, s, isPublic⟩ → hits base t s isPublic = [⟨t, s, isPublic⟩] := by
    intro v l hnodes hl hv
    rw [hits, hnodes, hv, List.filter_cons_of_pos (by simpa using hname), List.filter_eq_nil_iff.mpr]
    intro w hw
    have hne := hwf.ne_name hu (hl w hw)
    rw [hname] at hne
    simpa using hne
  cases t with
  | classTypeInfo name => exact hbelow _ [] rfl (by simp) rfl
  | siClassTypeInfo name b =>
    refine hbelow _ _ rfl (fun w hw => ?_) rfl
    exact Relation.TransGen.head' .single (mem_nodes_iff.mp hw)
  | vmiClassTypeInfo name flags bases =>
    refine hbelow _ _ rfl (fun w hw => ?_) rfl
    obtain ⟨i, info, b, hi, hw⟩ := mem_nodesOfBases.mp hw
    rw [Nat.zero_add] at hw
    exact Relation.TransGen.head' (.multiple hi) (mem_nodes_iff.mp hw)

omit [DecidableEq Name] in
/-- The walk ends at a class at which the callback does not go down. -/
theorem walkTypeInfoTree_of_stop {S C : Type} {cb : WalkCallback Name S C} {t : ClassTypeInfo Name} {state state' : S}
    {parent : Option (ClassTypeInfo Name × Nat)} {captured captured' : C} {result : TypeInfoWalkResult}
    (h : cb state t parent captured = (result, state', captured')) (hresult : result ≠ .recurse) :
    walkTypeInfoTree cb t state parent captured = (if result = .noRecurse then .recurse else result, captured') := by
  cases t <;> rw [walkTypeInfoTree, h] <;> cases result <;> simp_all

theorem mem_hits {t : ClassTypeInfo Name} {s : Subobject Name} {isPublic : Bool} {u : Node Name} :
    u ∈ hits base t s isPublic ↔ Derives ⟨t, s, isPublic⟩ u ∧ u.type.name = base := by
  rw [hits, List.mem_filter, mem_nodes_iff, decide_eq_true_eq]

theorem hitsOfBases_cons (baseInfo : BaseClassTypeInfo) (baseType : ClassTypeInfo Name)
    (bases : List (BaseClassTypeInfo × ClassTypeInfo Name)) (k : Nat) (s : Subobject Name) (isPublic : Bool) :
    hitsOfBases base ((baseInfo, baseType) :: bases) k s isPublic =
      hits base baseType (s.base baseInfo baseType k) (isPublic && baseInfo.isPublic) ++
        hitsOfBases base bases (k + 1) s isPublic := by
  rw [hitsOfBases, nodesOfBases, List.filter_append]
  rfl

/-- What the walk over a class does, whatever was found before. -/
def Walks (m : Memory) (derived : ClassTypeInfo Name) (address : Subobject Name → BitVec 64) (base : Name)
    (t : ClassTypeInfo Name) : Prop :=
  ∀ s isPublic info parent candidate found, Derives (.whole derived) ⟨t, s, isPublic⟩ →
    Describes address (info.enter m parent) ⟨t, s, isPublic⟩ → Stands address candidate found →
    (∀ v, found = some v → Derives (.whole derived) v ∧ v.type.name = base) →
    (found.toList ++ hits base t s isPublic).Pairwise Apart →
    ∃ result candidate', walkTypeInfoTree (visit m base) t info parent candidate = (result, candidate') ∧
      Outcome address found (hits base t s isPublic) result candidate' ∧ result ≠ .noRecurse ∧
      (result = .skipSiblings → t.name = base ∧ (info.enter m parent).noRepeatedBases = true)

/-- A class of the name ends the walk. -/
theorem walks_of_name (hwf : WellFormed derived) (hlayout : Layout m derived object address)
    {t : ClassTypeInfo Name} (hname : t.name = base) : Walks m derived address base t := by
  intro s isPublic info parent candidate found hreach hinfo hcandidate hfound hapart
  rw [hits_of_name hwf hreach hname] at hapart ⊢
  obtain ⟨result, candidate', hvisit, houtcome, hrecurse, hskip⟩ :=
    visit_hit hlayout hreach hname hinfo hcandidate hfound hapart
  refine ⟨_, _, walkTypeInfoTree_of_stop hvisit hrecurse, ?_, ?_, ?_⟩
  · cases houtcome with
    | ambiguous hsame => exact .ambiguous hsame
    | unambiguous hsame hresult hstands =>
      refine .unambiguous hsame ?_ hstands
      split
      · decide
      · exact hresult
  · split
    · decide
    · assumption
  · intro h
    split at h
    · cases h
    · exact ⟨hname, hskip h⟩

theorem mem_hitsOfBases {name : Name} {flags : BitVec 32} {bases pre rest : List (BaseClassTypeInfo × ClassTypeInfo Name)}
    {s : Subobject Name} {isPublic : Bool} {u : Node Name} (hbases : bases = pre ++ rest)
    (hu : u ∈ hitsOfBases base rest pre.length s isPublic) :
    Derives ⟨.vmiClassTypeInfo name flags bases, s, isPublic⟩ u ∧ u.type.name = base := by
  rw [hitsOfBases, List.mem_filter, mem_nodesOfBases, decide_eq_true_eq] at hu
  obtain ⟨⟨i, info, b, hi, hu⟩, hname⟩ := hu
  have hidx : bases[pre.length + i]? = some (info, b) := by
    rw [hbases, List.getElem?_append_right (Nat.le_add_right _ _), Nat.add_sub_cancel_left, hi]
  exact ⟨.head (.multiple hidx) (mem_nodes_iff.mp hu), hname⟩

/-- The rest of the bases is skipped only if it has the same subobject again. -/
theorem walkBases_outcome (hwf : WellFormed derived) (hlayout : Layout m derived object address) {name : Name}
    {flags : BitVec 32} {bases : List (BaseClassTypeInfo × ClassTypeInfo Name)} {s : Subobject Name} {isPublic : Bool}
    (info : TiPathInfo) (hreach : Derives (.whole derived) ⟨.vmiClassTypeInfo name flags bases, s, isPublic⟩)
    (hinfo : Describes address info ⟨.vmiClassTypeInfo name flags bases, s, isPublic⟩)
    (hflag : info.noRepeatedBases = true → flags &&& nonDiamondRepeatMask = 0)
    (hwalks : ∀ e ∈ bases, Walks m derived address base e.2)
    (pre rest : List (BaseClassTypeInfo × ClassTypeInfo Name)) (hbases : bases = pre ++ rest)
    {candidate : Option TiPathInfo} {found : Option (Node Name)} (hcandidate : Stands address candidate found)
    (hfound : ∀ v, found = some v → Derives (.whole derived) v ∧ v.type.name = base)
    (hapart : (found.toList ++ hitsOfBases base rest pre.length s isPublic).Pairwise Apart) :
    ∃ result candidate', walkBases (visit m base) (.vmiClassTypeInfo name flags bases) info rest pre.length .recurse
        candidate = (result, candidate') ∧
      Outcome address found (hitsOfBases base rest pre.length s isPublic) result candidate' ∧
      result ≠ .noRecurse ∧ result ≠ .skipSiblings := by
  induction rest generalizing pre candidate found with
  | nil =>
    refine ⟨_, _, rfl, .unambiguous ?_ (by decide) ?_, by decide, by decide⟩
    · cases found <;> simp [AllSame, hitsOfBases, nodesOfBases]
    · cases found <;> simpa [hitsOfBases, nodesOfBases] using hcandidate
  | cons e rest ih =>
    obtain ⟨baseInfo, baseType⟩ := e
    have hidx : bases[pre.length]? = some (baseInfo, baseType) := by
      rw [hbases, List.getElem?_append_right (Nat.le_refl _), Nat.sub_self]
      rfl
    have hchild : Derives (.whole derived) _ := hreach.tail (.multiple hidx)
    have henter : info.enter m (some (.vmiClassTypeInfo name flags bases, pre.length)) = info.adjust m baseInfo := by
      simp only [TiPathInfo.enter, hidx]
    have hbases' : bases = (pre ++ [(baseInfo, baseType)]) ++ rest := by simp [hbases]
    have hlength : pre.length + 1 = (pre ++ [(baseInfo, baseType)]).length := by simp
    rw [hitsOfBases_cons, ← List.append_assoc] at hapart
    obtain ⟨result, candidate', hwalk, houtcome, hno, hskip⟩ :=
      hwalks _ (List.mem_of_getElem? hidx) _ _ info (some (.vmiClassTypeInfo name flags bases, pre.length)) candidate
        found hchild (henter ▸ hinfo.adjust hlayout hreach hidx) hcandidate hfound (List.pairwise_append.mp hapart).1
    rw [hitsOfBases_cons]
    simp only [walkBases, hwalk]
    cases houtcome with
    | ambiguous hsame =>
      refine ⟨_, _, rfl, .ambiguous fun h => hsame ?_, by decide, by decide⟩
      rw [← List.append_assoc] at h
      exact h.of_append
    | unambiguous hsame hresult hstands =>
      cases result with
      | done => exact absurd rfl hresult
      | noRecurse => exact absurd rfl hno
      | skipSiblings =>
        -- all of these classes in the parent are one subobject
        obtain ⟨hname, hrepeated⟩ := hskip rfl
        rw [henter] at hrepeated
        have hone : ∀ w, Derives ⟨.vmiClassTypeInfo name flags bases, s, isPublic⟩ w → w.type.name = base →
            w.sub = s.base baseInfo baseType pre.length := fun w hw hwname =>
          hwf.repeated _ _ _ _ _ (hflag hrepeated) hreach w _ hw (.single (.multiple hidx)) (hwname.trans hname.symm)
        have hmem : (⟨baseType, s.base baseInfo baseType pre.length, isPublic && baseInfo.isPublic⟩ : Node Name) ∈
            hits base baseType (s.base baseInfo baseType pre.length) (isPublic && baseInfo.isPublic) :=
          mem_hits.mpr ⟨.refl, hname⟩
        refine ⟨_, _, rfl, .unambiguous ?_ (by decide) ?_, by decide, by decide⟩
        · have hall : ∀ w ∈ found.toList ++ (hits base baseType (s.base baseInfo baseType pre.length)
              (isPublic && baseInfo.isPublic) ++ hitsOfBases base rest (pre.length + 1) s isPublic),
              w.sub = s.base baseInfo baseType pre.length := by
            intro w hw
            rw [← List.append_assoc] at hw
            obtain hw | hw := List.mem_append.mp hw
            · exact hsame w hw _ (List.mem_append_right _ hmem)
            · rw [hlength] at hw
              obtain ⟨hw, hwname⟩ := mem_hitsOfBases hbases' hw
              exact hone w hw hwname
          intro v hv w hw
          rw [hall v hv, hall w hw]
        · rw [← List.append_assoc, List.head?_append_of_ne_nil _ (List.ne_nil_of_mem (List.mem_append_right _ hmem))]
          exact hstands
      | recurse =>
        rw [hlength] at hapart ⊢
        have hfound' : ∀ v, (found.toList ++ hits base baseType (s.base baseInfo baseType pre.length)
            (isPublic && baseInfo.isPublic)).head? = some v → Derives (.whole derived) v ∧ v.type.name = base := by
          intro v hv
          obtain hv | hv := List.mem_append.mp (List.mem_of_mem_head? hv)
          · exact hfound v (Option.mem_toList.mp hv)
          · obtain ⟨hv, hvname⟩ := mem_hits.mp hv
            exact ⟨hchild.trans hv, hvname⟩
        obtain ⟨result', candidate'', hrest, houtcome, hskip'⟩ :=
          ih _ hbases' hstands hfound' (hapart.sublist ((head?_toList_sublist _).append_right _))
        refine ⟨result', candidate'', hrest, ?_, hskip'⟩
        cases houtcome with
        | ambiguous hsame' =>
          refine .ambiguous fun h => hsame' ?_
          rw [← List.append_assoc] at h
          exact (allSame_append_iff hsame).mp h
        | unambiguous hsame' hresult' hstands' =>
          refine .unambiguous ?_ hresult' ?_
          · rw [← List.append_assoc]
            exact (allSame_append_iff hsame).mpr hsame'
          · rw [head?_toList_append, List.append_assoc] at hstands'
            exact hstands'

omit [DecidableEq Name] in
theorem Outcome.of_nil {candidate : Option TiPathInfo} {found : Option (Node Name)} {result : TypeInfoWalkResult}
    (hcandidate : Stands address candidate found) (hresult : result ≠ .done) :
    Outcome address found [] result candidate := by
  refine .unambiguous ?_ hresult ?_
  · cases found <;> simp [AllSame]
  · cases found <;> simpa using hcandidate

theorem hits_of_ne_name {u : Node Name} {l : List (Node Name)} (hnodes : nodes u.type u.sub u.isPublic = u :: l)
    (hname : u.type.name ≠ base) : hits base u.type u.sub u.isPublic = l.filter (·.type.name = base) := by
  rw [hits, hnodes, List.filter_cons_of_neg (by simpa using hname)]

/-- The walk finds the first class of the name, unless two of them are different subobjects. -/
theorem walks (hwf : WellFormed derived) (hlayout : Layout m derived object address) (t : ClassTypeInfo Name) :
    Walks m derived address base t := by
  induction t using ClassTypeInfo.induct with
  | hclass name =>
    by_cases hname : name = base
    · exact walks_of_name hwf hlayout hname
    intro s isPublic info parent candidate found hreach hinfo hcandidate hfound hapart
    have hvisit : visit m base info (.classTypeInfo name) parent candidate =
        (.recurse, info.enter m parent, candidate) := if_neg hname
    rw [hits_of_ne_name (u := ⟨.classTypeInfo name, s, isPublic⟩) rfl hname]
    refine ⟨.recurse, candidate, ?_, .of_nil hcandidate (by decide), by decide, fun h => by cases h⟩
    rw [walkTypeInfoTree, hvisit]
  | hsi name b ih =>
    by_cases hname : name = base
    · exact walks_of_name hwf hlayout hname
    intro s isPublic info parent candidate found hreach hinfo hcandidate hfound hapart
    have hvisit : visit m base info (.siClassTypeInfo name b) parent candidate =
        (.recurse, info.enter m parent, candidate) := if_neg hname
    have hhits := hits_of_ne_name (u := ⟨.siClassTypeInfo name b, s, isPublic⟩) rfl hname
    have hbase : Describes address (info.enter m parent) ⟨b, s.extend 0, isPublic⟩ :=
      ⟨hinfo.objectPtr.trans (hlayout.single _ _ _ _ hreach).symm, hinfo.isPublic, hinfo.isVirtual⟩
    rw [hhits] at hapart ⊢
    obtain ⟨result, candidate', hwalk, houtcome, hno, -⟩ :=
      ih _ _ (info.enter m parent) (some (.siClassTypeInfo name b, 0)) _ _ (hreach.tail .single) hbase hcandidate
        hfound hapart
    refine ⟨if result = .done then .done else .recurse, candidate', ?_, ?_, ?_, ?_⟩
    · rw [walkTypeInfoTree, hvisit]
      simp only [hwalk]
      cases result <;> rfl
    · cases houtcome with
      | ambiguous hsame => exact .ambiguous hsame
      | unambiguous hsame hresult hstands => exact .unambiguous hsame (by simp [hresult]) hstands
    · split <;> decide
    · split <;> exact fun h => by cases h
  | hvmi name flags bases ih =>
    by_cases hname : name = base
    · exact walks_of_name hwf hlayout hname
    intro s isPublic info parent candidate found hreach hinfo hcandidate hfound hapart
    have hvisit : visit m base info (.vmiClassTypeInfo name flags bases) parent candidate =
        (.recurse, { info.enter m parent with noRepeatedBases := flags &&& nonDiamondRepeatMask = 0 }, candidate) :=
      if_neg hname
    have hhits := hits_of_ne_name (u := ⟨.vmiClassTypeInfo name flags bases, s, isPublic⟩) rfl hname
    rw [hhits] at hapart ⊢
    obtain ⟨result, candidate', hwalk, houtcome, hno, hskip⟩ :=
      walkBases_outcome hwf hlayout
        { info.enter m parent with noRepeatedBases := flags &&& nonDiamondRepeatMask = 0 } hreach
        ⟨hinfo.objectPtr, hinfo.isPublic, hinfo.isVirtual⟩ of_decide_eq_true ih [] bases rfl hcandidate hfound hapart
    refine ⟨result, candidate', ?_, houtcome, hno, fun h => absurd h hskip⟩
    rw [walkTypeInfoTree, hvisit]
    exact hwalk

end Walk

end XviOs.CxxAbi
