namespace ApiSurface.WellKnown

def void      : String := "void"
def boxedVoid : String := "java.lang.Void"

def object : String := "java.lang.Object"
def string : String := "java.lang.String"

def jsonObject : String := "io.vertx.core.json.JsonObject"
def jsonArray  : String := "io.vertx.core.json.JsonArray"

def list : String := "java.util.List"
def set  : String := "java.util.Set"
def map  : String := "java.util.Map"

def readStream  : String := "io.vertx.core.streams.ReadStream"
def writeStream : String := "io.vertx.core.streams.WriteStream"
def handler     : String := "io.vertx.core.Handler"
def iterable    : String := "java.lang.Iterable"
def iterator    : String := "java.util.Iterator"
def function    : String := "java.util.function.Function"

def throwables : List String :=
  ["java.lang.Throwable", "java.lang.Exception", "java.lang.RuntimeException", "java.lang.Error"]

-- The primitives, each with the class that boxes it.
def primitives : List (String × String) :=
  [("boolean", "java.lang.Boolean"),
   ("byte",    "java.lang.Byte"),
   ("short",   "java.lang.Short"),
   ("int",     "java.lang.Integer"),
   ("long",    "java.lang.Long"),
   ("float",   "java.lang.Float"),
   ("double",  "java.lang.Double"),
   ("char",    "java.lang.Character")]

-- The class that boxes a primitive.
def boxOf? (primitive : String) : Option String :=
  primitives.lookup primitive

def isPrimitive (name : String) : Bool :=
  primitives.any (·.1 = name)

def isBox (name : String) : Bool :=
  primitives.any (·.2 = name)

end ApiSurface.WellKnown
