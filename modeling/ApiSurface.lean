import ApiSurface.Capability
import ApiSurface.Catalog
import ApiSurface.Declaration
import ApiSurface.Diagnostic
import ApiSurface.Diagnostic.Template
import ApiSurface.Dotted
import ApiSurface.Fault
import ApiSurface.Flags
import ApiSurface.Json.Binary64
import ApiSurface.Json.Fields
import ApiSurface.Json.Numeral
import ApiSurface.Json.Quoted
import ApiSurface.Json.Reader
import ApiSurface.Json.Text
import ApiSurface.Json.Value
import ApiSurface.Kind
import ApiSurface.Kind.Classification
import ApiSurface.Legality.Method
import ApiSurface.Legality.Permissions
import ApiSurface.Legality.Rule
import ApiSurface.LogSettings
import ApiSurface.Model
import ApiSurface.Model.Decoding
import ApiSurface.Model.Encoding
import ApiSurface.Model.Equality
import ApiSurface.Model.Shape
import ApiSurface.ModelError
import ApiSurface.Registry
import ApiSurface.Registry.Build
import ApiSurface.Registry.Search
import ApiSurface.Registry.Standard
import ApiSurface.TypeRef
import ApiSurface.TypeRef.Substitution
import ApiSurface.Validation
import ApiSurface.WellKnown
import ApiSurface.Proofs.Model.RoundTrip
import ApiSurface.Proofs.Build.Success
import ApiSurface.Proofs.Build.Closing
import ApiSurface.Proofs.Search.Resolution
import ApiSurface.Proofs.Json.Nesting
import ApiSurface.Proofs.Search.Instantiation
import ApiSurface.Proofs.Build.Consistency
import ApiSurface.Proofs.Model.Arity
import ApiSurface.Proofs.Validation.Batch
import ApiSurface.Proofs.Legality.Usage
import ApiSurface.Proofs.Validation.Relaxing
import ApiSurface.Proofs.Json.Grammar
import ApiSurface.Proofs.Model.Layers
import ApiSurface.Proofs.Json.Listing
import ApiSurface.Proofs.Model.Normal
import ApiSurface.Proofs.Model.Spelling
import ApiSurface.Proofs.Model.Delimited
import ApiSurface.Proofs.Model.Options
import ApiSurface.Proofs.Build.Faithful
import ApiSurface.Proofs.Validation.Packages
import ApiSurface.Proofs.Build.Machine
import ApiSurface.Proofs.Build.Unmentioned
import ApiSurface.Proofs.Validation.Apart
import ApiSurface.Proofs.Validation.Void
import ApiSurface.Proofs.Legality.Table
import ApiSurface.Proofs.Search.Ending
import ApiSurface.Proofs.Search.Scope
import ApiSurface.Proofs.Build.Display
import ApiSurface.Proofs.Validation.Refusals
import ApiSurface.Proofs.Registry.Modules
import ApiSurface.Proofs.Legality.Delegation
import ApiSurface.Proofs.Legality.Granted
import ApiSurface.Proofs.Build.Restoring
