import ApiSurface.Registry
import ApiSurface.WellKnown

namespace ApiSurface.Registry

-- The well-known declarations that have type parameters.
def genericDeclarations : List Declaration :=
  [{ name := WellKnown.list,     params := ["E"] },
   { name := WellKnown.set,      params := ["E"] },
   { name := WellKnown.map,      params := ["K", "V"] },
   { name := WellKnown.iterable, params := ["T"] },
   { name := WellKnown.iterator, params := ["E"] },
   { name := WellKnown.function, params := ["T", "R"] },
   { name := WellKnown.handler,     flags := { api := true }, params := ["E"] },
   { name := WellKnown.readStream,  flags := { api := true }, params := ["T"] },
   { name := WellKnown.writeStream, flags := { api := true }, params := ["T"] }]

def standardDeclarations : List Declaration :=
  (WellKnown.primitives.map (·.2)
    ++ [WellKnown.boxedVoid, WellKnown.object, WellKnown.string, WellKnown.jsonObject,
        WellKnown.jsonArray]
    ++ WellKnown.throwables).map (fun name => { name := name })
  ++ genericDeclarations

def standard : Registry where
  declarations := .ofList standardDeclarations

-- A sample: streams and functions as API interfaces, two value objects, an enumeration and a class
-- without any mark, in a module of three packages.
def sampleDeclarations : List Declaration :=
  let pipe        := "com.acme.api.Pipe"
  let transformer := "com.acme.api.Transformer"
  let chain       := "com.acme.api.Chain"
  let base        := "com.acme.api.BaseStream"
  [{ name := "com.acme.api.Widget", flags := { api := true } },
   { name := "com.acme.api.Source", flags := { api := true }
     supertypes := [.applied WellKnown.readStream [.named WellKnown.string]] },
   { name := pipe, flags := { api := true }, params := ["T"]
     supertypes := [.applied WellKnown.readStream [.classVar pipe "T"],
                    .applied WellKnown.writeStream [.classVar pipe "T"]] },
   { name := transformer, flags := { api := true }, params := ["T", "R"]
     supertypes := [.applied WellKnown.function
                      [.classVar transformer "T", .classVar transformer "R"]] },
   { name := chain, flags := { api := true }
     supertypes := [.applied WellKnown.handler [.named chain]] },
   { name := base, params := ["X"]
     supertypes := [.applied WellKnown.readStream [.classVar base "X"]] },
   { name := "com.acme.api.DerivedStream", flags := { api := true }
     supertypes := [.applied base [.named WellKnown.jsonObject]] },
   { name := "com.acme.api.Names", flags := { api := true }
     supertypes := [.applied WellKnown.iterable [.named WellKnown.string]] },
   { name := "com.acme.model.Point", flags := { valueObject := true } },
   { name := "com.acme.model.Shape", flags := { valueObject := true, isAbstract := true } },
   { name := "com.acme.model.Color", flags := { enumeration := true }
     constants := ["RED", "GREEN", "BLUE"] },
   { name := "com.acme.internal.Opaque" }]

def samplePackages : List Package :=
  [{ name := "com.acme", header := some { name := "acme", groupPackage := "com.acme" } },
   { name := "com.acme.api" },
   { name := "com.acme.model" }]

def sample : Registry where
  declarations := .ofList (standardDeclarations ++ sampleDeclarations)
  packages     := .ofList samplePackages

end ApiSurface.Registry
