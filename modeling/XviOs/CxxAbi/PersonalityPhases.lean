import XviOs.CxxAbi.PersonalityRecords

namespace XviOs.CxxAbi

open Dwarf

/-- A language-specific data area: the call sites that its table lists, and the chain of each site with an action. -/
structure DataArea (m : Memory) (context : Context) where
  lsda_ne : context.lsda ≠ 0
  info : LsdaHeaderInfo
  header : parseLSDAHeader m context = some info
  sites : List CallsiteInfo
  table : CallSites m info info.calltablePtr sites
  actions : CallsiteInfo → List ActionInfo
  chain : ∀ site ∈ sites, site.actionId ≠ 0 → Chain m (getActionTableEntry info site.actionId - 1) (actions site)

section DataArea

variable {m : Memory} {context : Context} (area : DataArea m context) (types : TypeInfos) (exception : Exception)

def DataArea.covering : Option CallsiteInfo := area.sites.find? (·.covers context.pc)

/-- The exception is handled at the site that covers the address. -/
def DataArea.HandlerAt (v : BitVec 64) : Prop :=
  ∃ site, area.covering = some site ∧ site.actionId ≠ 0 ∧
    HandlerValue m types area.info exception.object (area.actions site) v

/-- A landing pad that cleans up. -/
def DataArea.CleansUp (site : CallsiteInfo) : Prop :=
  site.landingpad ≠ 0 ∧ (site.actionId = 0 ∨ ∃ r ∈ area.actions site, r.typeFilter = 0)

def DataArea.CleanupAt (landingpad : BitVec 64) : Prop :=
  ∃ site, area.covering = some site ∧ area.CleansUp site ∧ site.landingpad = landingpad

/-- The search of the code reaches the site, and takes it for one. -/
def DataArea.Reaches (site : CallsiteInfo) : Prop :=
  area.sites.find? (·.stops context.pc) = some site ∧ site.rangeStart ≠ 0

/-- The chain of the call site that covers the address is served, if the code reaches it. A site that is not reached
has nothing to run. -/
structure DataArea.Serves : Prop where
  served : ∀ site, area.covering = some site → site.actionId ≠ 0 → area.Reaches site → site.landingpad ≠ 0 →
    Served m types area.info exception.object (area.actions site)
  nothing : ∀ site, area.covering = some site → site.actionId ≠ 0 → ¬ (area.Reaches site ∧ site.landingpad ≠ 0) →
    ∀ r ∈ area.actions site, ¬ Handles m types area.info exception.object r
  reaches : ∀ site, area.covering = some site → area.CleansUp site → area.Reaches site

/-- Steps that are enough for the call sites, and for the chain of the one that covers the address. -/
def DataArea.steps : Nat := area.sites.length + 1 + area.covering.elim 0 fun site => (area.actions site).length

theorem find_covers {sites : List CallsiteInfo} {pc : BitVec 64} {site : CallsiteInfo}
    (h : sites.find? (·.stops pc) = some site) (hcovers : site.covers pc = true) :
    sites.find? (·.covers pc) = some site := by
  obtain ⟨-, pre, post, rfl, hpre⟩ := List.find?_eq_some_iff_append.mp h
  refine List.find?_eq_some_iff_append.mpr ⟨hcovers, pre, post, rfl, ?_⟩
  intro x hx
  have hstops := hpre x hx
  simp only [CallsiteInfo.stops, Bool.not_or, Bool.and_eq_true] at hstops
  exact hstops.1

theorem DataArea.findCallSiteInfo_eq {fuel : Nat} (hfuel : area.steps ≤ fuel) :
    (∃ site, area.covering = some site ∧ area.Reaches site ∧
      findCallSiteInfo m area.info fuel context.pc = some site) ∨
    (∃ site, site.rangeStart = 0 ∧ findCallSiteInfo m area.info fuel context.pc = some site ∧
      ∀ site, area.covering = some site → ¬ area.Reaches site) := by
  have hlength : area.sites.length < fuel := by
    unfold DataArea.steps at hfuel
    omega
  have hfind := findCallSiteLoop_eq area.table context.pc hlength
  cases hstop : area.sites.find? (·.stops context.pc) with
  | none =>
    rw [hstop] at hfind
    refine Or.inr ⟨_, rfl, hfind, ?_⟩
    rintro site - ⟨hsome, -⟩
    rw [hstop] at hsome
    cases hsome
  | some site =>
    rw [hstop] at hfind
    by_cases hcovers : site.covers context.pc = true
    · simp only [CallsiteInfo.found, if_pos hcovers] at hfind
      by_cases hstart : site.rangeStart = 0
      · refine Or.inr ⟨site, hstart, hfind, ?_⟩
        rintro site' - ⟨hsome, hstart'⟩
        obtain rfl := Option.some.inj (hstop.symm.trans hsome)
        exact hstart' hstart
      · exact Or.inl ⟨site, find_covers hstop hcovers, ⟨hstop, hstart⟩, hfind⟩
    · simp only [CallsiteInfo.found, if_neg hcovers] at hfind
      refine Or.inr ⟨{}, rfl, hfind, ?_⟩
      rintro site' hcovering ⟨hsome, -⟩
      obtain rfl := Option.some.inj (hstop.symm.trans hsome)
      unfold DataArea.covering at hcovering
      exact hcovers (by simpa using List.find?_some hcovering)

/-- What the code finds, where it should find `HandlerAt`. -/
def DataArea.CodeAt (v : BitVec 64) : Prop :=
  ∃ site, area.covering = some site ∧ area.Reaches site ∧ site.landingpad ≠ 0 ∧ site.actionId ≠ 0 ∧
    CodeValue m types area.info exception.object (area.actions site) v

theorem DataArea.codeAt_iff_of_serves (h : area.Serves types exception) (v : BitVec 64) :
    area.CodeAt types exception v ↔ area.HandlerAt types exception v := by
  constructor
  · rintro ⟨site, hcovering, hreaches, hpad, hid, hcode⟩
    have hserved := h.served site hcovering hid hreaches hpad
    exact ⟨site, hcovering, hid, (codeValue_iff_of_served m types area.info exception.object hserved v).mp hcode⟩
  · rintro ⟨site, hcovering, hid, hhandler⟩
    by_cases hreaches : area.Reaches site ∧ site.landingpad ≠ 0
    · have hserved := h.served site hcovering hid hreaches.1 hreaches.2
      exact ⟨site, hcovering, hreaches.1, hreaches.2, hid,
        (codeValue_iff_of_served m types area.info exception.object hserved v).mpr hhandler⟩
    · obtain ⟨r, post, hfirst, -⟩ := hhandler
      have hmem := hfirst.mem
      obtain ⟨-, -, -, hhandles⟩ := hfirst
      exact absurd hhandles (h.nothing site hcovering hid hreaches r hmem)

theorem DataArea.serves_of_forall_iff
    (h : ∀ v, area.CodeAt types exception v ↔ area.HandlerAt types exception v)
    (hreaches : ∀ site, area.covering = some site → area.CleansUp site → area.Reaches site) :
    area.Serves types exception := by
  constructor
  · intro site hcovering hid hreach hpad
    apply served_of_forall_iff
    intro v
    constructor
    · intro hcode
      obtain ⟨site', hcovering', -, hhandler⟩ := (h v).mp ⟨site, hcovering, hreach, hpad, hid, hcode⟩
      obtain rfl := Option.some.inj (hcovering.symm.trans hcovering')
      exact hhandler
    · intro hhandler
      obtain ⟨site', hcovering', -, -, -, hcode⟩ := (h v).mpr ⟨site, hcovering, hid, hhandler⟩
      obtain rfl := Option.some.inj (hcovering.symm.trans hcovering')
      exact hcode
  · intro site hcovering hid hnot r hr hhandles
    obtain ⟨v, hv⟩ := exists_handlerValue m types area.info exception.object hr hhandles
    obtain ⟨site', hcovering', hreach, hpad, -⟩ := (h v).mpr ⟨site, hcovering, hid, hv⟩
    obtain rfl := Option.some.inj (hcovering.symm.trans hcovering')
    exact hnot ⟨hreach, hpad⟩
  · exact hreaches

/-- No pointer matches a foreign exception, whose type is a class. -/
def ForeignMatch : Prop :=
  exception.native = false →
    ∀ m' catchType ptr, types.isPointer catchType = true → types.typeMatch m' catchType ptr = none

theorem matchAction_memory {info : LsdaHeaderInfo} {obj actionPtr : BitVec 64} {action : ActionInfo}
    {found : HandlerInfo} {m' : Memory}
    (hforeign : ∀ m' catchType ptr, types.isPointer catchType = true → types.typeMatch m' catchType ptr = none)
    (h : matchAction m types info obj actionPtr action = some (some (found, m'))) : m' = m := by
  unfold matchAction at h
  split at h
  · cases h
    rfl
  split at h
  · split at h
    · cases h
    · split at h
      · cases h
        rfl
      · split at h
        · cases h
        · rename_i hmatch
          split at h
          · rename_i hpointer
            rw [hforeign _ _ _ hpointer] at hmatch
            cases hmatch
          · cases h
            rfl
  · cases h

theorem findMatchingActionLoop_memory {info : LsdaHeaderInfo} {obj ptr : BitVec 64} {found : HandlerInfo}
    {m' : Memory} {fuel : Nat}
    (hforeign : ∀ m' catchType ptr, types.isPointer catchType = true → types.typeMatch m' catchType ptr = none)
    (h : findMatchingActionLoop m types info obj fuel ptr = some (some (found, m'))) : m' = m := by
  induction fuel generalizing ptr with
  | zero => cases h
  | succ fuel ih =>
    simp only [findMatchingActionLoop] at h
    split at h
    · cases h
    · split at h
      · cases h
      · rename_i hmatch
        cases h
        exact matchAction_memory types hforeign hmatch
      · split at h
        · cases h
        · exact ih h

/-- The search at the site that is reached. -/
theorem DataArea.findMatchingAction_first {site : CallsiteInfo} (hsite : area.covering = some site)
    (hid : site.actionId ≠ 0) {fuel : Nat} (hfuel : area.steps ≤ fuel) {r : ActionInfo} {post : List ActionInfo}
    (h : First (CodeStops m types area.info exception.object) (area.actions site) r post) :
    ∃ found m', findMatchingAction m types area.info exception.object fuel site.actionId = some (some (found, m')) ∧
      found.switchValue = r.typeFilter := by
  apply findMatchingActionLoop_first m types area.info exception.object
    (area.chain site (List.mem_of_find?_eq_some hsite) hid) _ h
  unfold DataArea.steps at hfuel
  rw [hsite, Option.elim_some] at hfuel
  omega

theorem DataArea.findMatchingAction_none {site : CallsiteInfo} (hsite : area.covering = some site)
    (hid : site.actionId ≠ 0) {fuel : Nat} (hfuel : area.steps ≤ fuel)
    (h : ¬ ∃ r ∈ area.actions site, CodeStops m types area.info exception.object r) :
    findMatchingAction m types area.info exception.object fuel site.actionId = some none := by
  apply findMatchingActionLoop_none m types area.info exception.object
    (area.chain site (List.mem_of_find?_eq_some hsite) hid) _ h
  unfold DataArea.steps at hfuel
  rw [hsite, Option.elim_some] at hfuel
  omega

/-- The first phase finds no handler where the code finds no switch value. -/
theorem DataArea.unwindPhase1_none {fuel : Nat} (hfuel : area.steps ≤ fuel)
    (h : ∀ v, ¬ area.CodeAt types exception v) :
    ∃ reason m', unwindPhase1 m types fuel exception context = some (reason, exception, m') ∧
      reason ≠ .handlerFound := by
  simp only [unwindPhase1, area.lsda_ne, if_false, area.header, Option.bind_eq_bind, Option.bind_some,
    Option.pure_def]
  obtain ⟨site, hcovering, hreaches, hfind⟩ | ⟨site, hstart, hfind, -⟩ := area.findCallSiteInfo_eq hfuel
  · simp only [hfind, Option.bind_some, if_neg hreaches.2]
    split
    · exact ⟨_, _, rfl, by decide⟩
    rename_i hpad
    rw [not_or] at hpad
    rw [if_neg exception.type_ne]
    by_cases hstops : ∃ r ∈ area.actions site, CodeStops m types area.info exception.object r
    · obtain ⟨r, post, hfirst⟩ := exists_first hstops
      obtain ⟨found, m', hmatch, hvalue⟩ :=
        area.findMatchingAction_first types exception hcovering hpad.2 hfuel hfirst
      have hzero : found.switchValue = 0 := by
        by_contra hne
        exact h _ ⟨site, hcovering, hreaches, hpad.1, hpad.2, r, post, hfirst, hvalue.symm, hne⟩
      simp only [hmatch, Option.bind_some, if_pos hzero]
      exact ⟨_, _, rfl, by decide⟩
    · rw [area.findMatchingAction_none types exception hcovering hpad.2 hfuel hstops]
      exact ⟨_, _, rfl, by decide⟩
  · simp only [hfind, Option.bind_some, if_pos hstart]
    exact ⟨_, _, rfl, by decide⟩

theorem unwindPhase2Handler_native (context : Context) (m' : Memory) (fuel : Nat) (hnative : exception.native = true) :
    ∃ context', unwindPhase2Handler m' types fuel exception context = some (.installContext, context', m') ∧
      context'.gr1 = exception.handlerSwitchValue.signExtend 64 :=
  ⟨(installContext context exception.adjustedPointer (exception.handlerSwitchValue.signExtend 64)
    exception.catchTemp).2, by simp [unwindPhase2Handler, hnative, installContext], rfl⟩

/-- Where the code finds a switch value, the first phase finds a handler, and what it leaves makes the second phase
enter it with that value. -/
theorem DataArea.unwindPhase1_some {fuel : Nat} (hfuel : area.steps ≤ fuel) (hforeign : ForeignMatch types exception)
    {v : BitVec 64} (h : area.CodeAt types exception v) :
    ∃ exception' m' context' m'',
      unwindPhase1 m types fuel exception context = some (.handlerFound, exception', m') ∧
        unwindPhase2Handler m' types fuel exception' context = some (.installContext, context', m'') ∧
        context'.gr1 = v := by
  obtain ⟨site, hcovering, hreaches, hpad, hid, r, post, hfirst, rfl, hne⟩ := h
  have hfind : findCallSiteInfo m area.info fuel context.pc = some site := by
    obtain ⟨site', hcovering', -, hfind⟩ | ⟨-, -, -, hnot⟩ := area.findCallSiteInfo_eq hfuel
    · rwa [Option.some.inj (hcovering.symm.trans hcovering')]
    · exact absurd hreaches (hnot site hcovering)
  obtain ⟨found, m', hmatch, hvalue⟩ := area.findMatchingAction_first types exception hcovering hid hfuel hfirst
  have hint : IsInt r.typeFilter :=
    (area.chain site (List.mem_of_find?_eq_some hcovering) hid).isInt r hfirst.mem
  rw [← hvalue] at hne hint ⊢
  simp only [unwindPhase1, area.lsda_ne, if_false, area.header, Option.bind_eq_bind, Option.bind_some,
    Option.pure_def, hfind, if_neg hreaches.2, hpad, hid, or_self, if_neg exception.type_ne, hmatch, if_neg hne]
  cases hnative : exception.native with
  | true =>
    obtain ⟨context', hphase, hgr⟩ := unwindPhase2Handler_native types
      { exception with
        handlerSwitchValue := found.switchValue.setWidth 32, actionRecord := found.actionRecord,
        languageSpecificDataArea := context.lsda, catchTemp := site.landingpad,
        adjustedPointer := found.adjustedPtr }
      context m' fuel hnative
    rw [hnative] at hphase
    exact ⟨_, m', context', m', rfl, hphase, hgr.trans hint⟩
  | false =>
    obtain rfl := findMatchingActionLoop_memory types (hforeign hnative) hmatch
    exact ⟨exception, m', installContext context exception.header found.switchValue site.landingpad |>.2, m', rfl,
      by simp [unwindPhase2Handler, hnative, area.header, hfind, hmatch, installContext], rfl⟩

theorem getActionTableEntry_sub (info : LsdaHeaderInfo) (id : BitVec 64) :
    getActionTableEntry info (id - 1) = getActionTableEntry info id - 1 := by
  simp only [getActionTableEntry, BitVec.sub_eq_add_neg, BitVec.add_assoc]

theorem DataArea.findCleanup_eq {site : CallsiteInfo} (hsite : area.covering = some site) (hid : site.actionId ≠ 0)
    {fuel : Nat} (hfuel : area.steps ≤ fuel) :
    findCleanup m fuel (getActionTableEntry area.info (site.actionId - 1)) =
      some ((area.actions site).any fun r => r.typeFilter = 0) := by
  rw [getActionTableEntry_sub]
  apply CxxAbi.findCleanup_eq (area.chain site (List.mem_of_find?_eq_some hsite) hid)
  unfold DataArea.steps at hfuel
  rw [hsite, Option.elim_some] at hfuel
  omega

/-- The second phase enters a landing pad of the site that is reached if it cleans up. -/
theorem DataArea.unwindPhase2Cleanup_eq {fuel : Nat} (hfuel : area.steps ≤ fuel) :
    ∃ reason context', unwindPhase2Cleanup m fuel exception context = some (reason, context') ∧
      (reason = .installContext ↔ ∃ site, area.covering = some site ∧ area.Reaches site ∧ area.CleansUp site) ∧
      (reason = .installContext → ∀ site, area.covering = some site → context'.ip = site.landingpad) := by
  simp only [unwindPhase2Cleanup, area.lsda_ne, if_false, area.header, Option.bind_eq_bind, Option.bind_some,
    Option.pure_def]
  obtain ⟨site, hcovering, hreaches, hfind⟩ | ⟨site, hstart, hfind, hnot⟩ := area.findCallSiteInfo_eq hfuel
  · have hsite : ∀ site', area.covering = some site' → site' = site :=
      fun site' hcovering' => Option.some.inj (hcovering'.symm.trans hcovering)
    have hiff : (∃ site, area.covering = some site ∧ area.Reaches site ∧ area.CleansUp site) ↔
        area.CleansUp site := by
      constructor
      · rintro ⟨site', hcovering', -, hcleans⟩
        rwa [← hsite site' hcovering']
      · exact fun hcleans => ⟨site, hcovering, hreaches, hcleans⟩
    rw [hiff]
    simp only [hfind, Option.bind_some, if_neg hreaches.2, DataArea.CleansUp]
    by_cases hpad : site.landingpad = 0
    · exact ⟨_, _, by rw [if_pos hpad], by simp [hpad], by simp⟩
    rw [if_neg hpad]
    have hpad' : site.landingpad ≠ 0#64 := hpad
    by_cases hid : site.actionId = 0
    · refine ⟨_, _, by rw [if_neg (not_not.mpr hid)], by simp [installContext, hpad', hid], ?_⟩
      intro _ site' hcovering'
      rw [hsite site' hcovering']
      rfl
    · simp only [ne_eq, hid, not_false_eq_true, if_true, area.findCleanup_eq hcovering hid hfuel, Option.bind_some]
      by_cases hclean : (area.actions site).any (fun r => r.typeFilter = 0) = true
      · refine ⟨_, _, by rw [if_pos hclean], ?_, ?_⟩
        · simpa [installContext, hpad'] using hclean
        · intro _ site' hcovering'
          rw [hsite site' hcovering']
          rfl
      · refine ⟨_, _, by rw [if_neg hclean], ?_, by simp⟩
        simpa [hpad'] using hclean
  · simp only [hfind, Option.bind_some, if_pos hstart]
    refine ⟨_, _, rfl, ?_, by simp⟩
    constructor
    · intro h
      cases h
    · rintro ⟨site', hcovering, hreaches, -⟩
      exact absurd hreaches (hnot site' hcovering)

/-- The search phase found a handler, and the handler phase after it installs a switch value. -/
def Yields (context : Context) (fuel : Nat) (result : PersonalityResult) (v : BitVec 64) : Prop :=
  result.reason = .handlerFound ∧
    ∃ installed, gxxPersonalityV0 result.memory types fuel result.exception context 1
        (uaCleanupPhase ||| uaHandlerFrame) = some installed ∧
      installed.reason = .installContext ∧ installed.context.gr1 = v

/-- The phases of the personality routine do as the data area says. -/
structure DataArea.Respected : Prop where
  search : ∃ n, ∀ fuel, n ≤ fuel → ∃ result,
    gxxPersonalityV0 m types fuel exception context 1 uaSearchPhase = some result ∧
      (result.reason = .handlerFound ↔ ∃ v, area.HandlerAt types exception v) ∧
      ∀ v, area.HandlerAt types exception v → Yields types context fuel result v
  cleanup : ∃ n, ∀ fuel, n ≤ fuel → ∃ result,
    gxxPersonalityV0 m types fuel exception context 1 uaCleanupPhase = some result ∧
      (result.reason = .installContext ↔ ∃ landingpad, area.CleanupAt landingpad) ∧
      ∀ landingpad, area.CleanupAt landingpad → result.context.ip = landingpad

theorem DataArea.codeAt_unique {v w : BitVec 64} (hv : area.CodeAt types exception v)
    (hw : area.CodeAt types exception w) : v = w := by
  obtain ⟨site, hcovering, -, -, -, hv⟩ := hv
  obtain ⟨site', hcovering', -, -, -, hw⟩ := hw
  obtain rfl := Option.some.inj (hcovering.symm.trans hcovering')
  exact codeValue_unique m types area.info exception.object hv hw

theorem Yields.unique {fuel : Nat} {result : PersonalityResult} {v w : BitVec 64}
    (hv : Yields types context fuel result v) (hw : Yields types context fuel result w) :
    v = w := by
  obtain ⟨-, installed, hphase, -, rfl⟩ := hv
  obtain ⟨-, installed', hphase', -, rfl⟩ := hw
  rw [Option.some.inj (hphase.symm.trans hphase')]

/-- The search phase in terms of what the code finds. -/
theorem DataArea.searchPhase_eq {fuel : Nat} (hfuel : area.steps ≤ fuel) (hforeign : ForeignMatch types exception) :
    ∃ result, gxxPersonalityV0 m types fuel exception context 1 uaSearchPhase = some result ∧
      (result.reason = .handlerFound ↔ ∃ v, area.CodeAt types exception v) ∧
      ∀ v, area.CodeAt types exception v → Yields types context fuel result v := by
  by_cases hcode : ∃ v, area.CodeAt types exception v
  · obtain ⟨v, hv⟩ := hcode
    obtain ⟨exception', m', context', m'', hphase1, hphase2, hgr⟩ :=
      area.unwindPhase1_some types exception hfuel hforeign hv
    refine ⟨⟨.handlerFound, exception', context, m'⟩, ?_, ⟨fun _ => ⟨v, hv⟩, fun _ => rfl⟩, ?_⟩
    · simp [gxxPersonalityV0, uaSearchPhase, hphase1]
    · intro w hw
      obtain rfl := area.codeAt_unique types exception hv hw
      refine ⟨rfl, ⟨.installContext, exception', context', m''⟩, ?_, rfl, hgr⟩
      simp [gxxPersonalityV0, uaSearchPhase, uaCleanupPhase, uaHandlerFrame, hphase2]
  · have hnone := fun v hv => hcode ⟨v, hv⟩
    obtain ⟨reason, m', hphase1, hreason⟩ := area.unwindPhase1_none types exception hfuel hnone
    refine ⟨⟨reason, exception, context, m'⟩, ?_, ?_, fun v hv => absurd hv (hnone v)⟩
    · simp [gxxPersonalityV0, uaSearchPhase, hphase1]
    · exact ⟨fun h => absurd h hreason, fun h => absurd h hcode⟩

theorem DataArea.cleanupPhase_eq {fuel : Nat} (hfuel : area.steps ≤ fuel) :
    ∃ result, gxxPersonalityV0 m types fuel exception context 1 uaCleanupPhase = some result ∧
      (result.reason = .installContext ↔
        ∃ site, area.covering = some site ∧ area.Reaches site ∧ area.CleansUp site) ∧
      (result.reason = .installContext → ∀ site, area.covering = some site → result.context.ip = site.landingpad) := by
  obtain ⟨reason, context', hphase, hiff, hip⟩ := area.unwindPhase2Cleanup_eq exception hfuel
  refine ⟨⟨reason, exception, context', m⟩, ?_, hiff, hip⟩
  simp [gxxPersonalityV0, uaSearchPhase, uaCleanupPhase, uaHandlerFrame, uaForceUnwind, hphase]

/-- Where the search phase respects the area, the code finds what it should find. -/
theorem DataArea.Respected.codeAt_iff (h : area.Respected types exception) (hforeign : ForeignMatch types exception)
    (v : BitVec 64) : area.CodeAt types exception v ↔ area.HandlerAt types exception v := by
  obtain ⟨n, hsearch⟩ := h.search
  obtain ⟨result, hphase, hiff, hyields⟩ := hsearch (max n area.steps) (Nat.le_max_left ..)
  obtain ⟨result', hphase', hiff', hyields'⟩ :=
    area.searchPhase_eq types exception (Nat.le_max_right n area.steps) hforeign
  obtain rfl := Option.some.inj (hphase.symm.trans hphase')
  constructor
  · intro hv
    obtain ⟨w, hw⟩ := hiff.mp (hiff'.mpr ⟨v, hv⟩)
    rwa [(hyields' v hv).unique types (hyields w hw)]
  · intro hv
    obtain ⟨w, hw⟩ := hiff'.mp (hiff.mpr ⟨v, hv⟩)
    rwa [(hyields v hv).unique types (hyields' w hw)]

/-- The personality routine respects a data area exactly if its search serves it. -/
theorem gxxPersonalityV0_respects_iff (hforeign : ForeignMatch types exception) :
    area.Respected types exception ↔ area.Serves types exception := by
  constructor
  · intro h
    apply area.serves_of_forall_iff types exception
    · exact DataArea.Respected.codeAt_iff area types exception h hforeign
    · intro site hcovering hcleans
      obtain ⟨n, hcleanup⟩ := h.cleanup
      obtain ⟨result, hphase, hiff, -⟩ := hcleanup (max n area.steps) (Nat.le_max_left ..)
      obtain ⟨result', hphase', hiff', -⟩ := area.cleanupPhase_eq types exception (Nat.le_max_right n area.steps)
      obtain rfl := Option.some.inj (hphase.symm.trans hphase')
      obtain ⟨site', hcovering', hreaches, -⟩ := hiff'.mp (hiff.mpr ⟨_, site, hcovering, hcleans, rfl⟩)
      rwa [Option.some.inj (hcovering.symm.trans hcovering')]
  · intro h
    constructor
    · refine ⟨area.steps, fun fuel hfuel => ?_⟩
      obtain ⟨result, hphase, hiff, hyields⟩ := area.searchPhase_eq types exception hfuel hforeign
      have hcode := area.codeAt_iff_of_serves types exception h
      refine ⟨result, hphase, ?_, fun v hv => hyields v ((hcode v).mpr hv)⟩
      rw [hiff, exists_congr hcode]
    · refine ⟨area.steps, fun fuel hfuel => ?_⟩
      obtain ⟨result, hphase, hiff, hip⟩ := area.cleanupPhase_eq types exception hfuel
      have hcleanup : ∀ {site}, area.covering = some site → area.CleansUp site → result.reason = .installContext :=
        fun hcovering hcleans => hiff.mpr ⟨_, hcovering, h.reaches _ hcovering hcleans, hcleans⟩
      refine ⟨result, hphase, ?_, ?_⟩
      · constructor
        · intro hreason
          obtain ⟨site, hcovering, -, hcleans⟩ := hiff.mp hreason
          exact ⟨_, site, hcovering, hcleans, rfl⟩
        · rintro ⟨landingpad, site, hcovering, hcleans, -⟩
          exact hcleanup hcovering hcleans
      · rintro landingpad ⟨site, hcovering, hcleans, rfl⟩
        exact hip (hcleanup hcovering hcleans) site hcovering

end DataArea

/-- One call site, the chain of a cleanup and a clause for any type, and the type table. -/
def cleanupThenCatchBytes : List (BitVec 8) :=
  [0xff, 0x03, 14, 0x01, 4, 0, 0x10, 0x20, 1, 0, 1, 1, 0, 0, 0, 0, 0]

/-- The same chain with its records the other way round. -/
def catchThenCleanupBytes : List (BitVec 8) :=
  [0xff, 0x03, 14, 0x01, 4, 0, 0x10, 0x20, 1, 1, 1, 0, 0, 0, 0, 0, 0]

def memoryAt (base : BitVec 64) (bytes : List (BitVec 8)) : Memory := fun ptr => bytes.getD (ptr - base).toNat 0

def sampleContext : Context :=
  { lsda := 0x1000, textRelBase := 0, dataRelBase := 0, regionStart := 0x400000, ip := 0x400005, ipBefore := false }

def sampleInfo : LsdaHeaderInfo :=
  { lsdaRelBase := 0x400000, typetablePtr := 0x1011, calltablePtr := 0x1005, calltableSize := 4,
    typetableEncoding := 0x03, calltableEncoding := 0x01 }

def sampleSite : CallsiteInfo := ⟨0x400000, 0x10, 0x400020, 1⟩

/-- No type is that of a pointer, and none matches. -/
def sampleTypes : TypeInfos := ⟨fun _ => false, fun _ _ _ => none⟩

theorem sampleType_ne : (0x3000 : BitVec 64) ≠ 0 := by decide

def sampleException : Exception := { header := 0x2000, native := true, type := 0x3000, type_ne := sampleType_ne }

theorem sample_foreign : ForeignMatch sampleTypes sampleException := fun _ _ _ _ _ => rfl

theorem sample_lsda_ne : sampleContext.lsda ≠ 0 := by decide

theorem sample_table {bytes : List (BitVec 8)}
    (h : parseCallSiteInfo (memoryAt 0x1000 bytes) sampleInfo 0x1005 = some (sampleSite, 0x1009)) :
    CallSites (memoryAt 0x1000 bytes) sampleInfo sampleInfo.calltablePtr [sampleSite] :=
  .site (by decide) h (.done (by decide))

theorem sample_chain {bytes : List (BitVec 8)} {records : List ActionInfo}
    (h : Chain (memoryAt 0x1000 bytes) 0x1009 records) :
    ∀ site ∈ [sampleSite], site.actionId ≠ 0 →
      Chain (memoryAt 0x1000 bytes) (getActionTableEntry sampleInfo site.actionId - 1) records := by
  intro site hsite _
  rw [List.mem_singleton.mp hsite]
  exact h

theorem cleanupThenCatch_chain :
    Chain (memoryAt 0x1000 cleanupThenCatchBytes) 0x1009 [⟨0, 0x100b⟩, ⟨1, 0⟩] :=
  .link rfl (by decide) (.last rfl rfl)

theorem catchThenCleanup_chain :
    Chain (memoryAt 0x1000 catchThenCleanupBytes) 0x1009 [⟨1, 0x100b⟩, ⟨0, 0⟩] :=
  .link rfl (by decide) (.last rfl rfl)

def cleanupThenCatchArea : DataArea (memoryAt 0x1000 cleanupThenCatchBytes) sampleContext :=
  ⟨sample_lsda_ne, sampleInfo, rfl, [sampleSite], sample_table rfl, fun _ => _, sample_chain cleanupThenCatch_chain⟩

def catchThenCleanupArea : DataArea (memoryAt 0x1000 catchThenCleanupBytes) sampleContext :=
  ⟨sample_lsda_ne, sampleInfo, rfl, [sampleSite], sample_table rfl, fun _ => _, sample_chain catchThenCleanup_chain⟩

theorem catchThenCleanup_handles :
    Handles (memoryAt 0x1000 catchThenCleanupBytes) sampleTypes sampleInfo sampleException.object ⟨1, 0x100b⟩ :=
  Or.inl ⟨by decide, 4, 0, rfl, rfl, Or.inl rfl⟩

theorem catchThenCleanup_serves : catchThenCleanupArea.Serves sampleTypes sampleException := by
  have hreaches : ∀ site, catchThenCleanupArea.covering = some site →
      catchThenCleanupArea.Reaches site ∧ site.landingpad ≠ 0 := by
    intro site hsite
    obtain rfl : site = sampleSite := (Option.some.inj hsite).symm
    exact ⟨⟨rfl, by decide⟩, by decide⟩
  constructor
  · intro site hsite _ _ _ r post hfirst
    have hhandles := catchThenCleanup_handles
    obtain ⟨-, rfl, -⟩ | ⟨hnot, -⟩ := first_cons_iff.mp hfirst
    · exact Or.inl ⟨by decide, hhandles⟩
    · exact absurd (Or.inr (Or.inl hhandles)) hnot
  · exact fun site hsite _ hnot => absurd (hreaches site hsite) hnot
  · exact fun site hsite _ => (hreaches site hsite).1

theorem catchThenCleanup_respected : catchThenCleanupArea.Respected sampleTypes sampleException :=
  (gxxPersonalityV0_respects_iff catchThenCleanupArea sampleTypes sampleException sample_foreign).mpr
    catchThenCleanup_serves

/-- A cleanup hides the clause for any type behind it. -/
theorem cleanupThenCatch_hidden : ¬ cleanupThenCatchArea.Respected sampleTypes sampleException := by
  intro h
  have hzero : ∀ x ∈ [(⟨0, 0x100b⟩ : ActionInfo)],
      ¬ Handles (memoryAt 0x1000 cleanupThenCatchBytes) sampleTypes sampleInfo sampleException.object x := by
    intro x hx hhandles
    rw [List.mem_singleton.mp hx] at hhandles
    exact hhandles.ne_zero _ _ _ _ rfl
  have hhandler : cleanupThenCatchArea.HandlerAt sampleTypes sampleException 1 :=
    ⟨sampleSite, rfl, by decide, ⟨1, 0⟩, [], ⟨[⟨0, 0x100b⟩], rfl, hzero, Or.inl ⟨by decide, 4, 0, rfl, rfl, Or.inl rfl⟩⟩,
      rfl⟩
  obtain ⟨site, -, -, -, -, hcode⟩ :=
    (DataArea.Respected.codeAt_iff cleanupThenCatchArea _ _ h sample_foreign 1).mpr hhandler
  have hfirst : First (Decides (memoryAt 0x1000 cleanupThenCatchBytes) sampleTypes sampleInfo sampleException.object)
      [⟨0, 0x100b⟩, ⟨1, 0⟩] ⟨0, 0x100b⟩ [⟨1, 0⟩] := ⟨[], rfl, by simp, Or.inl rfl⟩
  exact not_codeValue_of_cleanup _ _ _ _ hfirst rfl hcode

end XviOs.CxxAbi
