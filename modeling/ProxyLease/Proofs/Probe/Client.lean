import ProxyLease.Probe.Http
import ProxyLease.Proofs.Endpoint.Identity
import ProxyLease.Proofs.Probe.ClientCache

/-!
# Which client probes a proxy

Clients are cached under the identity of a proxy, which leaves out its transport and its
credentials. A request therefore goes to the right host and port, but while a client is
cached it goes out the way the endpoint was spoken to when that client was built.
-/

namespace ProxyLease

namespace Endpoint

variable {a b : Endpoint}

/-- Spoken to in the same way: endpoints that differ in their source at most. -/
def Alike (a b : Endpoint) : Prop :=
  a.transport = b.transport ∧ a.host = b.host ∧ a.port = b.port ∧
    a.username = b.username ∧ a.password = b.password

instance : Decidable (a.Alike b) := inferInstanceAs (Decidable (_ ∧ _ ∧ _ ∧ _ ∧ _))

theorem Alike.refl (a : Endpoint) : a.Alike a := ⟨rfl, rfl, rfl, rfl, rfl⟩

theorem Alike.url (h : a.Alike b) : a.url = b.url := by
  obtain ⟨htransport, hhost, hport, hname, hpassword⟩ := h
  simp only [Endpoint.url, text, htransport, hhost, hport, hname, hpassword]

end Endpoint

namespace HttpProber

variable {s : ProbeSettings} {p : HttpProber} {now last : Instant} {endpoint : Endpoint}
  {exchange : Endpoint → Exchange}

/-- The client of an endpoint itself, if its address can be used. -/
def ownClient (endpoint : Endpoint) : Except RequestFlaw Endpoint :=
  match endpoint.url with
  | .ok _ => .ok endpoint
  | .error _ => .error .unusable

theorem eq_of_ownClient {client : Endpoint} (h : ownClient endpoint = .ok client) :
    client = endpoint := by
  unfold ownClient at h
  split at h <;> cases h
  rfl

theorem check_prober : (p.check now endpoint exchange).2 =
    { p with clients := (p.clients.obtain endpoint.id now (ownClient endpoint)).2 } := by
  unfold check ownClient
  cases endpoint.url <;> rfl

theorem check_client_eq_some {client : Endpoint} :
    (p.check now endpoint exchange).1.client = some client ↔
      (p.clients.obtain endpoint.id now (ownClient endpoint)).1 = .ok client ∧
        ∃ target, requestTarget p.settings.validationUrl = .ok target := by
  unfold check ownClient
  cases endpoint.url <;> dsimp only
  all_goals
    cases (p.clients.obtain endpoint.id now _).1 with
    | error flaw => simp
    | ok used => cases requestTarget p.settings.validationUrl <;> simp

/-- A check that was made: when, of which endpoint, and the client its request went through. -/
structure Trial where
  now : Instant
  endpoint : Endpoint
  client : Option Endpoint

/-- The probers that checks at non-decreasing times make of a fresh one, with these checks,
the latest first. Nothing is said about the order in which clients are cached. -/
inductive Probed (s : ProbeSettings) : Instant → List Trial → HttpProber → Prop
  | none (now : Instant) : Probed s now [] (.ofSettings s)
  | check {last now : Instant} {trials : List Trial} {p : HttpProber} (endpoint : Endpoint)
      (exchange : Endpoint → Exchange) : Probed s last trials p → last ≤ now →
      Probed s now (⟨now, endpoint, (p.check now endpoint exchange).1.client⟩ :: trials)
        (p.check now endpoint exchange).2
  | reorder {now : Instant} {trials : List Trial} {p : HttpProber}
      {entries : List (CachedClient Endpoint)} : Probed s now trials p →
      entries.Perm p.clients.entries →
      Probed s now trials { p with clients := { p.clients with entries } }

variable {trials newer older : List Trial} {u : Trial} {client : Endpoint}

theorem Probed.settings_eq (h : Probed s last trials p) : p.settings = s := by
  induction h with
  | none now => rfl
  | check endpoint exchange _ _ ih => rwa [check_prober]
  | reorder _ _ ih => exact ih

theorem Probed.reached (h : Probed s last trials p) :
    ClientCache.Reached s.maxCachedClients s.clientIdleTimeout last p.clients := by
  induction h with
  | none now => exact .empty now
  | check endpoint exchange _ hnow ih =>
    rw [check_prober]
    exact ih.obtain endpoint.id (ownClient endpoint) hnow
  | reorder _ hperm ih => exact ih.reorder hperm

theorem Probed.now_le (h : Probed s last trials p) : ∀ u ∈ trials, u.now ≤ last := by
  induction h with
  | none now => simp
  | check endpoint exchange _ hnow ih =>
    intro u hu
    rcases List.mem_cons.mp hu with rfl | hold
    · exact Nat.le_refl _
    · exact Nat.le_trans (ih u hold) hnow
  | reorder _ _ ih => exact ih

/-- Where a cached client comes from: it was built for a check of its identity, and last used
by a check of that identity. -/
structure Recorded (trials : List Trial) (e : CachedClient Endpoint) : Prop where
  key : e.key = e.client.id
  built : ∃ u ∈ trials, u.endpoint = e.client
  used : ∃ u ∈ trials, u.endpoint.id = e.key ∧ u.now = e.lastUsed

theorem Probed.recorded (h : Probed s last trials p) :
    ∀ e ∈ p.clients.entries, Recorded trials e := by
  induction h with
  | none now => simp [ofSettings, ClientCache.empty]
  | @check last now trials p endpoint exchange hp hnow ih =>
    intro x hx
    rw [check_prober] at hx
    rcases ClientCache.mem_obtain hp.reached.keys_nodup hx with ⟨e, he, rfl⟩ | ⟨client, hmade, rfl⟩
    · obtain ⟨hkey, ⟨u, hu, hbuilt⟩, v, hv, hused⟩ :=
        ih e (ClientCache.sweep_sublist.subset he)
      split
      next hsame =>
        exact ⟨hkey, ⟨u, List.mem_cons_of_mem _ hu, hbuilt⟩, _, List.mem_cons_self, hsame.symm, rfl⟩
      next =>
        exact ⟨hkey, ⟨u, List.mem_cons_of_mem _ hu, hbuilt⟩, v, List.mem_cons_of_mem _ hv, hused⟩
    · rw [eq_of_ownClient hmade]
      exact ⟨rfl, ⟨_, List.mem_cons_self, rfl⟩, _, List.mem_cons_self, rfl, rfl⟩
  | reorder _ hperm ih =>
    intro e he
    exact ih e (hperm.mem_iff.mp he)

theorem Probed.cached_of_latest (h : Probed s last trials p) (htrials : trials = newer ++ u :: older)
    (hnewer : ∀ v ∈ newer, v.endpoint.id ≠ u.endpoint.id) (hclient : u.client = some client)
    (hrecent : last < u.now + s.clientIdleTimeout.ns) :
    ⟨u.endpoint.id, client, u.now⟩ ∈ p.clients.entries := by
  induction h generalizing newer with
  | none now => simp at htrials
  | @check last now trials p endpoint exchange hp hnow ih =>
    cases newer with
    | nil =>
      obtain ⟨rfl, rfl⟩ := List.cons.inj htrials
      rw [check_prober]
      exact ClientCache.mem_obtain_of_ok hp.reached.keys_nodup (check_client_eq_some.mp hclient).1
    | cons v newer =>
      obtain ⟨rfl, rfl⟩ := List.cons.inj htrials
      have hold := ih rfl (fun v hv => hnewer v (List.mem_cons_of_mem _ hv))
        (Nat.lt_of_le_of_lt hnow hrecent)
      have hpast : u.now ≤ last := hp.now_le u (List.mem_append_right _ List.mem_cons_self)
      have hfresh : now - u.now < p.clients.idleTimeout.ns := by
        rw [hp.reached.limits.2]
        exact Nat.sub_lt_left_of_lt_add (Nat.le_trans hpast hnow) hrecent
      have hother : u.endpoint.id ≠ endpoint.id := (hnewer _ List.mem_cons_self).symm
      have hkept : (if u.endpoint.id = endpoint.id then _ else _) ∈
          (p.clients.obtain endpoint.id now (ownClient endpoint)).2.entries :=
        ClientCache.mem_obtain_of_fresh hp.reached.keys_nodup hold hfresh
      rwa [if_neg hother] at hkept
  | reorder _ hperm ih => exact hperm.mem_iff.mpr (ih htrials hnewer hrecent)

theorem Probed.target_of_client (h : Probed s last trials p) (hu : u ∈ trials)
    (hclient : u.client = some client) : ∃ target, requestTarget s.validationUrl = .ok target := by
  induction h with
  | none now => cases hu
  | check endpoint exchange hp _ ih =>
    rcases List.mem_cons.mp hu with rfl | hold
    · rw [← hp.settings_eq]
      exact (check_client_eq_some.mp hclient).2
    · exact ih hold
  | reorder _ _ ih => exact ih hu

theorem client_cases (hkeys : (p.clients.entries.map (·.key)).Nodup)
    (hclient : (p.check now endpoint exchange).1.client = some client) :
    (∃ e ∈ (p.clients.sweep now).entries, e.key = endpoint.id ∧ e.client = client) ∨
      client = endpoint := by
  have hok := (check_client_eq_some.mp hclient).1
  by_cases hcached : ∃ e ∈ (p.clients.sweep now).entries, e.key = endpoint.id
  · obtain ⟨e, he, hkey⟩ := hcached
    rw [ClientCache.obtain_of_cached hkeys he hkey] at hok
    exact Or.inl ⟨e, he, hkey, Except.ok.inj hok⟩
  · push Not at hcached
    rw [ClientCache.obtain_of_absent hcached] at hok
    exact Or.inr (eq_of_ownClient hok)

theorem Probed.makes_request (h : Probed s last trials p) {url target : Url}
    (hurl : endpoint.url = .ok url) (htarget : requestTarget s.validationUrl = .ok target) :
    ∃ client, (p.check now endpoint exchange).1.client = some client := by
  have hown : ownClient endpoint = .ok endpoint := by simp only [ownClient, hurl]
  simp only [check_client_eq_some, h.settings_eq]
  by_cases hcached : ∃ e ∈ (p.clients.sweep now).entries, e.key = endpoint.id
  · obtain ⟨e, he, hkey⟩ := hcached
    rw [ClientCache.obtain_of_cached h.reached.keys_nodup he hkey]
    exact ⟨e.client, rfl, target, htarget⟩
  · push Not at hcached
    rw [ClientCache.obtain_of_absent hcached]
    exact ⟨endpoint, hown, target, htarget⟩

/-- A client that is not the endpoint's own was built for a check of the identity, and the
identity was checked less than two idle timeouts ago. -/
theorem Probed.origin (h : Probed s last trials p) (hnow : last ≤ now)
    (hclient : (p.check now endpoint exchange).1.client = some client) :
    client = endpoint ∨ client.id = endpoint.id ∧ (∃ u ∈ trials, u.endpoint = client) ∧
      ∃ u ∈ trials, u.endpoint.id = endpoint.id ∧ now < u.now + 2 * s.clientIdleTimeout.ns := by
  rcases client_cases h.reached.keys_nodup hclient with ⟨e, he, hkey, rfl⟩ | rfl
  · obtain ⟨hid, hbuilt, v, hv, hvid, hvnow⟩ :=
      h.recorded e (ClientCache.sweep_sublist.subset he)
    have hrecent := h.reached.unused_lt_of_mem_sweep hnow he
    refine .inr ⟨hid.symm.trans hkey, hbuilt, v, hv, hvid.trans hkey, ?_⟩
    grind
  · exact .inl rfl

/-- Within one idle timeout the client of the latest check is used again. -/
theorem Probed.used_again (h : Probed s last trials p) (hnow : last ≤ now)
    (htrials : trials = newer ++ u :: older) (hnewer : ∀ v ∈ newer, v.endpoint.id ≠ endpoint.id)
    (hid : u.endpoint.id = endpoint.id) (hclient : u.client = some client)
    (hrecent : now < u.now + s.clientIdleTimeout.ns) :
    (p.check now endpoint exchange).1.client = some client := by
  have hmem : u ∈ trials := htrials ▸ List.mem_append_right _ List.mem_cons_self
  have hcached := h.cached_of_latest htrials (hid ▸ hnewer) hclient
    (Nat.lt_of_le_of_lt hnow hrecent)
  have hfresh : now - u.now < p.clients.idleTimeout.ns := by
    rw [h.reached.limits.2]
    exact Nat.sub_lt_left_of_lt_add (Nat.le_trans (h.now_le u hmem) hnow) hrecent
  have hswept := ClientCache.mem_sweep_of_fresh hcached hfresh
  rw [check_client_eq_some, h.settings_eq,
    ClientCache.obtain_of_cached h.reached.keys_nodup hswept hid]
  exact ⟨rfl, h.target_of_client hmem hclient⟩

/-- The second check is of a proxy that cannot be reached as its endpoint says: under this
transport the host is none. It goes out through the client that was built for the first. -/
theorem request_through_client_of_other_transport :
    ∃ (trials : List Trial) (p : HttpProber),
      Probed (.standard "http://validation.test/ip") 0 trials p ∧
      ∃ u ∈ trials, ∃ client, u.client = some client ∧ ¬ client.Alike u.endpoint := by
  let first := Endpoint.plain "127.0.0.1\\" 8080 .http
  let second := Endpoint.plain "127.0.0.1\\" 8080 .socks5
  have hfirst : Probed (.standard "http://validation.test/ip") 0 _ _ :=
    (Probed.none 0).check first (fun _ => .refused) (by decide)
  have hsecond : Probed _ 0 _ _ := hfirst.check second (fun _ => .refused) (by decide)
  refine ⟨_, _, hsecond, _, List.mem_cons_self, first, ?_, by decide⟩
  decide +kernel

/-- The client of a request has the host and the port of the proxy that is checked. It was
built from the endpoint itself, or for an earlier check of the same identity, which then lies
less than two idle timeouts back; and the client of the latest check of the identity is used
again within one. -/
theorem client_of_identity_and_own_unless_recent (h : Probed s last trials p) (hnow : last ≤ now)
    (endpoint : Endpoint) (exchange : Endpoint → Exchange) :
    (∀ url target, endpoint.url = .ok url → requestTarget s.validationUrl = .ok target →
      ∃ client, (p.check now endpoint exchange).1.client = some client) ∧
    (∀ client, (p.check now endpoint exchange).1.client = some client →
      (client = endpoint ∨ ∃ u ∈ trials, u.endpoint = client) ∧
      client.host.toList.map Char.toLower = endpoint.host.toList.map Char.toLower ∧
      client.port = endpoint.port ∧
      ((∀ u ∈ trials, u.endpoint.id = endpoint.id → u.endpoint.Alike endpoint) →
        client.Alike endpoint ∧ client.url = endpoint.url) ∧
      ((∀ u ∈ trials, u.endpoint.id = endpoint.id →
          u.now + 2 * s.clientIdleTimeout.ns ≤ now) → client = endpoint)) ∧
    ∀ newer u older client, trials = newer ++ u :: older →
      (∀ v ∈ newer, v.endpoint.id ≠ endpoint.id) → u.endpoint.id = endpoint.id →
      u.client = some client → now < u.now + s.clientIdleTimeout.ns →
      (p.check now endpoint exchange).1.client = some client := by
  refine ⟨fun url target => h.makes_request, ?_, ?_⟩
  · intro client hclient
    rcases h.origin hnow hclient with rfl | ⟨hid, ⟨u, hu, hbuilt⟩, v, hv, hvid, hvnow⟩
    · exact ⟨.inl rfl, rfl, rfl, fun _ => ⟨.refl _, rfl⟩, fun _ => rfl⟩
    · obtain ⟨hhost, hport⟩ := Endpoint.id_eq_iff.mp hid
      refine ⟨.inr ⟨u, hu, hbuilt⟩, hhost, hport, ?_, ?_⟩
      · intro halike
        have hsame := halike u hu (by rw [hbuilt, hid])
        rw [hbuilt] at hsame
        exact ⟨hsame, hsame.url⟩
      · intro hlong
        exact absurd (hlong v hv hvid) (Nat.not_le_of_lt hvnow)
  · intro newer u older client htrials hnewer hid hclient hrecent
    exact h.used_again hnow htrials hnewer hid hclient hrecent

/-- A proxy that comes back with a user name within the idle timeout is probed without it. -/
theorem checked_again_without_credentials :
    ∃ (trials : List Trial) (p : HttpProber),
      Probed (.standard "http://validation.test/ip") 0 trials p ∧
      ((p.check 1 ((Endpoint.plain "10.0.0.1" 8080 .http).withCredentials "user" none)
        fun _ => .refused).1.client = some (.plain "10.0.0.1" 8080 .http)) := by
  have hfirst : Probed (.standard "http://validation.test/ip") 0 _ _ :=
    (Probed.none 0).check (.plain "10.0.0.1" 8080 .http) (fun _ => .refused) (by decide)
  refine ⟨_, _, hfirst, ?_⟩
  apply (client_of_identity_and_own_unless_recent hfirst (by decide) _ _).2.2 [] _ [] _ rfl
  · simp
  · decide +kernel
  · decide +kernel
  · decide +kernel

end HttpProber
end ProxyLease
