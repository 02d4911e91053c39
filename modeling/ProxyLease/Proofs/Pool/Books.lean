import ProxyLease.Proofs.Census
import ProxyLease.Proofs.Pool.Calm

/-!
# The books of a pool

A pool is enrolled if every entry of its registry names a record of that identity, none
twice, and only expired proxies, or proxies handed out for good, are without an entry.
Its books are in order if moreover the census balances the states of the registered
proxies. Each kind of stroke keeps the books in order.
-/

namespace ProxyLease.Pool

variable {p q : Pool} {h k : Handle} {id : String} {s t : Lifecycle}

/-- Entries name their records, and what has no entry has left for good. -/
structure Enrolled (p : Pool) : Prop where
  keyed : p.registry.Keyed
  named : ∀ e ∈ p.registry.entries, p.id? e.2 = some e.1
  gone : ∀ h s, p.state? h = some s → h ∉ p.registry.handles →
    s = .expired ∨ p.settings.removeAfterGet = true ∧ s = .inUse

def states (p : Pool) : List Lifecycle := p.registry.handles.filterMap p.state?

def statesBut (p : Pool) (h : Handle) : List Lifecycle :=
  (p.registry.handles.erase h).filterMap p.state?

/-- The registry is sound, and once the proxies are counted the census balances it. -/
structure Books (counted : Prop) (p : Pool) : Prop where
  enrolled : Enrolled p
  balanced : counted → p.census.Balances p.states

namespace Enrolled

theorem lt_size (he : p.Enrolled) (hh : h ∈ p.registry.handles) : h < p.records.size := by
  obtain ⟨e, hm, rfl⟩ := List.mem_map.mp hh
  have hid := he.named e hm
  by_contra hn
  rw [id?, record?, Array.getElem?_eq_none (Nat.le_of_not_lt hn)] at hid
  cases hid

theorem mem_entries (he : p.Enrolled) (hh : h ∈ p.registry.handles) (hid : p.id? h = some id) :
    (id, h) ∈ p.registry.entries := by
  obtain ⟨e, hm, rfl⟩ := List.mem_map.mp hh
  have heq := he.named e hm
  rw [hid] at heq
  cases heq
  exact hm

theorem nodup (he : p.Enrolled) : p.registry.handles.Nodup := by
  refine List.Nodup.map_on (fun a ha b hb hab => ?_) (List.Nodup.of_map _ he.keyed)
  refine Registry.eq_of_keyed he.keyed ha hb ?_
  have hname := he.named a ha
  rw [hab, he.named b hb] at hname
  exact (Option.some.inj hname).symm

theorem mem_handles (he : p.Enrolled) (hs : p.state? h = some s) (hlive : s ≠ .expired)
    (hkept : s = .inUse → p.settings.removeAfterGet = false) : h ∈ p.registry.handles := by
  by_contra hn
  rcases he.gone h s hs hn with hx | ⟨hm, hu⟩
  · exact hlive hx
  · rw [hkept hu] at hm
    cases hm

/-- A proxy is found among those of its state unless it has left or is used. -/
theorem mem_proxiesIn (he : p.Enrolled) (hs : p.state? h = some s) (hlive : s ≠ .expired)
    (huse : s ≠ .inUse) : h ∈ p.proxiesIn s :=
  Pool.mem_proxiesIn.mpr ⟨he.mem_handles hs hlive fun hu => absurd hu huse, hs⟩

theorem handles_remove (he : p.Enrolled) (hm : (id, h) ∈ p.registry.entries) :
    (p.registry.remove id).handles = p.registry.handles.erase h := by
  rw [he.nodup.erase_eq_filter, Registry.handles, Registry.handles, List.filter_map,
    Registry.remove]
  refine congrArg _ (List.filter_congr fun e hme => ?_)
  have hiff : e.1 = id ↔ e.2 = h := by
    constructor
    · intro hid
      rw [Registry.eq_of_keyed he.keyed hme hm hid]
    · intro hh
      have hname := he.named e hme
      rw [hh, he.named _ hm] at hname
      exact (Option.some.inj hname).symm
  by_cases hh : e.2 = h
  · simp [hiff.mpr hh, hh]
  · simp [mt hiff.mp hh, hh]

end Enrolled

/-! ### States of registered proxies -/

theorem states_perm (hh : h ∈ p.registry.handles) (hs : p.state? h = some s) :
    p.states.Perm (s :: p.statesBut h) := by
  have hf := (List.perm_cons_erase hh).filterMap p.state?
  rw [List.filterMap_cons_some hs] at hf
  exact hf

theorem states_congr (hregistry : q.registry = p.registry)
    (hstate : ∀ k, q.state? k = p.state? k) : q.states = p.states := by
  rw [states, states, hregistry]
  exact List.filterMap_congr fun k _ => hstate k

/-- One proxy moved, and every record keeps its name. -/
structure Moved (h : Handle) (s t : Lifecycle) (p q : Pool) : Prop where
  source : p.state? h = some s
  target : q.state? h = some t
  others : ∀ k, k ≠ h → q.state? k = p.state? k
  ids : ∀ k, q.id? k = p.id? k
  settings : q.settings = p.settings

theorem moved_transfer (hs : p.state? h = some s) (hst : s ≠ t) :
    Moved h s t p (p.transfer h s t) := by
  have hstate (k : Handle) := state?_transfer (k := k) hs hst
  obtain ⟨records, registry, census, trace, he⟩ := transfer_frame p h s t
  exact ⟨hs, by rw [hstate, if_pos rfl], fun k hk => by rw [hstate, if_neg hk],
    fun k => id?_transfer hs hst, by rw [he]⟩

theorem moved_handOut (hs : p.state? h = some .available) :
    Moved h .available .inUse p (p.handOut h) := by
  have hstate (k : Handle) := state?_handOut (k := k) hs
  obtain ⟨records, registry, census, trace, he⟩ := handOut_frame p h
  exact ⟨hs, by rw [hstate, if_pos rfl], fun k hk => by rw [hstate, if_neg hk],
    fun k => id?_handOut hs, by rw [he]⟩

theorem Moved.filterMap_erase (hm : Moved h s t p q) (he : p.Enrolled) :
    (p.registry.handles.erase h).filterMap q.state? = p.statesBut h :=
  List.filterMap_congr fun k hk => hm.others k (he.nodup.mem_erase_iff.mp hk).1

theorem Moved.states_stay (hm : Moved h s t p q) (he : p.Enrolled) (hh : h ∈ p.registry.handles)
    (hregistry : q.registry = p.registry) : q.states.Perm (t :: p.statesBut h) := by
  rw [← hm.filterMap_erase he, ← hregistry]
  exact states_perm (hregistry ▸ hh) hm.target

theorem Moved.states_leave (hm : Moved h s t p q) (he : p.Enrolled)
    (hentry : (id, h) ∈ p.registry.entries) (hregistry : q.registry = p.registry.remove id) :
    q.states = p.statesBut h := by
  rw [states, hregistry, he.handles_remove hentry, hm.filterMap_erase he]

theorem registry_transfer (he : p.Enrolled) (hs : p.state? h = some s) (hst : s ≠ t)
    (hentry : (id, h) ∈ p.registry.entries) : (p.transfer h s t).registry =
      if t = .expired then p.registry.remove id else p.registry := by
  have hid := he.named _ hentry
  rw [transfer_eq hs hid hst]
  exact if_congr Iff.rfl rfl (Registry.update_self he.keyed hentry)

theorem registry_handOut (he : p.Enrolled) (hs : p.state? h = some .available)
    (hentry : (id, h) ∈ p.registry.entries) : (p.handOut h).registry =
      if p.settings.removeAfterGet then p.registry.remove id else p.registry := by
  have hid := he.named _ hentry
  rw [handOut_eq hs hid]
  exact if_congr Iff.rfl rfl (Registry.update_self he.keyed hentry)

theorem states_register {e : Endpoint} (he : p.Enrolled) (ha : p.admit? e = some q) :
    q.states.Perm (.pending :: p.states) := by
  have hstate (k : Handle) := state?_register (h := k) ha
  obtain ⟨registry, queue, hadd, hq⟩ := admit?_eq_some ha
  have hp : q.registry.handles.Perm (p.records.size :: p.registry.handles) := by
    rw [hq]
    exact (Registry.add?_eq_some hadd).2.map (·.2)
  have hf := hp.filterMap q.state?
  rw [List.filterMap_cons_some (by rw [hstate, if_pos rfl])] at hf
  refine hf.trans (.of_eq (congrArg _ (List.filterMap_congr fun k hk => ?_)))
  rw [hstate, if_neg (he.lt_size hk).ne]

/-! ### Strokes -/

namespace Books

variable {counted : Prop}

theorem congr (hb : Books counted p) (hsettings : q.settings = p.settings)
    (hregistry : q.registry = p.registry) (hid : ∀ k, q.id? k = p.id? k)
    (hstate : ∀ k, q.state? k = p.state? k) (hcounts : q.census.counts = p.census.counts)
    (htotal : q.census.total = p.census.total) : Books counted q := by
  have he := hb.enrolled
  refine ⟨⟨?_, ?_, ?_⟩, ?_⟩
  · rw [hregistry]
    exact he.keyed
  · intro e hm
    rw [hregistry] at hm
    rw [hid, he.named e hm]
  · intro k s hs hk
    rw [hstate] at hs
    rw [hregistry] at hk
    rw [hsettings]
    exact he.gone k s hs hk
  · intro hc
    rw [states_congr hregistry hstate]
    exact (hb.balanced hc).congr hcounts htotal

theorem stay (hb : Books counted p) (hm : Moved h s t p q) (hh : h ∈ p.registry.handles)
    (hregistry : q.registry = p.registry)
    (hcensus : ∀ rest, p.census.Balances (s :: rest) → q.census.Balances (t :: rest)) :
    Books counted q := by
  have he := hb.enrolled
  refine ⟨⟨?_, ?_, ?_⟩, ?_⟩
  · rw [hregistry]
    exact he.keyed
  · intro e hme
    rw [hregistry] at hme
    rw [hm.ids, he.named e hme]
  · intro k u hu hk
    rw [hregistry] at hk
    rw [hm.others k (fun hkh => hk (hkh ▸ hh))] at hu
    rw [hm.settings]
    exact he.gone k u hu hk
  · intro hc
    have hperm := hm.states_stay he hh hregistry
    exact (hcensus _ ((hb.balanced hc).perm (states_perm hh hm.source))).perm hperm.symm

theorem leave (hb : Books counted p) (hm : Moved h s t p q)
    (hentry : (id, h) ∈ p.registry.entries) (hregistry : q.registry = p.registry.remove id)
    (hleft : t = .expired ∨ p.settings.removeAfterGet = true ∧ t = .inUse)
    (hcensus : ∀ rest, p.census.Balances (s :: rest) → q.census.Balances rest) :
    Books counted q := by
  have he := hb.enrolled
  have hhandles : q.registry.handles = p.registry.handles.erase h := by
    rw [hregistry, he.handles_remove hentry]
  refine ⟨⟨?_, ?_, ?_⟩, ?_⟩
  · rw [hregistry]
    exact he.keyed.remove id
  · intro e hme
    rw [hregistry] at hme
    rw [hm.ids, he.named e (List.mem_of_mem_filter hme)]
  · intro k u hu hk
    rw [hhandles, he.nodup.mem_erase_iff] at hk
    rw [hm.settings]
    by_cases hkh : k = h
    · rw [hkh, hm.target] at hu
      cases hu
      exact hleft
    · rw [hm.others k hkh] at hu
      exact he.gone k u hu fun hin => hk ⟨hkh, hin⟩
  · intro hc
    have hh : h ∈ p.registry.handles := List.mem_map.mpr ⟨_, hentry, rfl⟩
    rw [hm.states_leave he hentry hregistry]
    exact hcensus _ ((hb.balanced hc).perm (states_perm hh hm.source))

/-- Transfers keep the books, unless they take back what was handed out for good. -/
theorem transfer (hb : Books counted p) (hs : p.state? h = some s) (hst : s ≠ t)
    (hlive : s ≠ .expired) (hkept : s = .inUse → p.settings.removeAfterGet = false) :
    Books counted (p.transfer h s t) := by
  have he := hb.enrolled
  have hm := moved_transfer hs hst
  have hh := he.mem_handles hs hlive hkept
  obtain ⟨id, hid⟩ := exists_id_of_state hs
  have hentry := he.mem_entries hh hid
  have hcensus : ∀ rest, p.census.Balances (s :: rest) →
      (p.transfer h s t).census.Balances (t :: rest) := by
    intro rest hbal
    rw [transfer_eq hs hid hst]
    exact hbal.change p.now hst
  have hregistry := registry_transfer he hs hst hentry
  by_cases ht : t = .expired
  · rw [if_pos ht] at hregistry
    refine hb.leave hm hentry hregistry (.inl ht) fun rest hbal => ?_
    rw [← Census.Balances.expired_iff, ← ht]
    exact hcensus rest hbal
  · rw [if_neg ht] at hregistry
    exact hb.stay hm hh hregistry hcensus

theorem handOut (hb : Books counted p) (hs : p.state? h = some .available) :
    Books counted (p.handOut h) := by
  have he := hb.enrolled
  have hm := moved_handOut hs
  have hh := he.mem_handles hs nofun nofun
  obtain ⟨id, hid⟩ := exists_id_of_state hs
  have hentry := he.mem_entries hh hid
  have hregistry := registry_handOut he hs hentry
  by_cases hmode : p.settings.removeAfterGet = true
  · rw [if_pos hmode] at hregistry
    refine hb.leave hm hentry hregistry (.inr ⟨hmode, rfl⟩) fun rest hbal => ?_
    have hclaim : p.claimedCensus = p.census.remove p.now .available := if_pos hmode
    rw [handOut_eq hs hid, hclaim]
    exact (hbal.remove p.now).congr (d := Census.recordServed _ _) rfl rfl
  · rw [if_neg hmode] at hregistry
    refine hb.stay hm hh hregistry fun rest hbal => ?_
    have hclaim : p.claimedCensus = p.census.change p.now .available .inUse := if_neg hmode
    rw [handOut_eq hs hid, hclaim]
    exact (hbal.change p.now (by decide)).congr (d := Census.recordServed _ _) rfl rfl

theorem register {e : Endpoint} (hb : Books counted p) (ha : p.admit? e = some q) :
    Books counted q := by
  have he := hb.enrolled
  have hold : ∀ k ∈ p.registry.handles, k ≠ p.records.size :=
    fun k hk => (he.lt_size hk).ne
  have hrecord (k : Handle) := record?_register (h := k) ha
  have hstate (k : Handle) := state?_register (h := k) ha
  obtain ⟨registry, queue, hadd, hq⟩ := admit?_eq_some ha
  obtain ⟨hfresh, hentries⟩ := Registry.add?_eq_some hadd
  have hregistry : q.registry = registry := by rw [hq]
  refine ⟨⟨?_, ?_, ?_⟩, ?_⟩
  · rw [hregistry]
    exact he.keyed.add hadd
  · intro x hm
    rw [hregistry, hentries.mem_iff, List.mem_cons] at hm
    rcases hm with rfl | hm
    · rw [id?, hrecord, if_pos rfl]
      rfl
    · rw [id?, hrecord, if_neg (hold x.2 (List.mem_map.mpr ⟨x, hm, rfl⟩))]
      exact he.named x hm
  · intro k s hs hk
    rw [hregistry, Registry.mem_handles_add hadd, not_or] at hk
    rw [hstate, if_neg hk.1] at hs
    rw [show q.settings = p.settings by rw [hq]]
    exact he.gone k s hs hk.2
  · intro hc
    rw [show q.census = p.census.add p.now .pending by rw [hq]]
    exact ((hb.balanced hc).add p.now .pending).perm (states_register he ha).symm

theorem recount (he : p.Enrolled) : Books True p.recount := by
  refine ⟨⟨he.keyed, he.named, he.gone⟩, ?_⟩
  intro _
  have hstates : p.recount.states = p.registered.map (·.state) := by
    rw [registered, List.map_filterMap]
    rfl
  rw [hstates]
  have hb := Census.Balances.foldl_add p.now (p.registered.map (·.state))
    (Census.Balances.reset p.census p.now)
  rwa [List.append_nil] at hb

theorem count_eq (hb : Books True p) (hs : s ≠ .expired) :
    p.census.count s = (p.proxiesIn s).length := by
  have hcount : p.states.count s = (p.proxiesIn s).length := by
    rw [states, List.count_filterMap, List.countP_eq_length_filter]
    rfl
  exact ((hb.balanced trivial).count s hs).trans hcount

end Books
end ProxyLease.Pool
